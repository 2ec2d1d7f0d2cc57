import Concord.ClientHistory

/-!
# Which packet is offered where

What the log of a client tells about the packets on its channels.

1. Where an offer, a lookup and a deletion stand in the way of their goroutine.
2. `requests_own`: hand-offs and registrations are those of `Send`.
3. `offers_accounted`: a packet offered on a response channel is the error packet of a
   failed write, or was decoded with the ref of a `Send` that was given the channel; and a
   packet that decodes is offered once.
-/

namespace Concord

open Go

/-- What a goroutine still does with a packet it has decoded. -/
def Op.afterDecode (p : Nat) : Op → Prop
  | .read q _ => q = p
  | .lookup _ | .unregister _ | .deliver _ _ | .misc _ => True
  | _ => False

/-- A packet that is offered, with its response channel, or `none` for `Misc`. -/
def Step.offer? (y : Step) : Option (Option Nat × Nat) :=
  match y.1 with
  | .deliver ch p => some (some ch, p)
  | .misc p => some (none, p)
  | _ => none

theorem Step.offer?_of_quiet {y : Step} (h : y.1.quiet = true) : y.offer? = none := by
  have hfree := Op.ofClient_of_quiet h
  obtain ⟨e, r⟩ := y
  cases e with
  | deliver ch p => cases hfree
  | misc p => cases hfree
  | _ => rfl

theorem offer?_offerStep (p : Nat) (res : Option (Option Nat)) :
    (UDPClient.offerStep p res).offer? = some (res.join, p) := by
  match res with
  | none => rfl
  | some none => rfl
  | some (some ch) => rfl

theorem ne_offerStep {y : Step} (h : y.offer? = none) (p : Nat) (res : Option (Option Nat)) :
    y ≠ UDPClient.offerStep p res := by
  rintro rfl
  cases h.symm.trans (offer?_offerStep p res)

section Delivery

variable {α : Type} {c : UDPClient} {app : α → Routine Unit}
  {s : Sys Op Op.Res Endpoint (UDPClient.Env α)} {evs : List (Event Choice (UDPClient.Env α))}
  {pre post : List (Entry Op Op.Res (UDPClient.Env α))}

/-! ## 1. Where offers come from -/

/-- The three operations after which a goroutine offers its packet. -/
def foundSteps (p : Nat) (bin : Bytes) (ref : GoString) (res : Option (Option Nat)) : List Step :=
  [⟨.call p (.unmarshal bin), none⟩, ⟨.read p (.metaGet keyRef), ref⟩, ⟨.lookup ref, res⟩]

/-- Goroutine `i` offers `p` because its write has failed. -/
def OffersFailure (i ch p : Nat) (log : List (Entry Op Op.Res (UDPClient.Env α))) : Prop :=
  ∃ err, (replay log).origins[i]? = some (.failedWrite ch err) ∧
    (∀ y ∈ own i log, y.1.quiet = true) ∧
    (Routine.newErrPkt [] [] (ascii "packet write error: " ++ err)).Leads (own i log) (.ret p)

/-- Goroutine `i` offers `p` because it has decoded it and found `ch` under its ref. -/
def OffersAnswer (i ch p : Nat) (ref : GoString)
    (log : List (Entry Op Op.Res (UDPClient.Env α))) : Prop :=
  ∃ tr bin, own i log = tr ++ foundSteps p bin ref (some (some ch)) ∧ ∀ y ∈ tr, y.1.quiet = true

theorem offer_source (hc : c.Quiet) (happ : ∀ call, Uses c (app call))
    (h : (c.machine app).run UDPClient.start evs = .ok s) {i ch p : Nat}
    (hlog : s.log = pre ++ .act i (.deliver ch p) () :: post) :
    OffersFailure i ch p pre ∨ ∃ ref, OffersAnswer i ch p ref pre := by
  obtain ⟨s₁, k, choice, st, o, -, -, -, -, ho, hlead⟩ := explained_act h hlog
  cases o with
  | app call =>
    obtain ⟨hanswers, -⟩ := (hlead.allOps ((happ call).allOps hc)).2
    cases hanswers
  | failedWrite respCh err =>
    obtain ⟨rfl, hquiet, hnew⟩ := UDPClient.writeError_at hlead
    exact .inl ⟨err, ho, hquiet, hnew⟩
  | incoming data =>
    obtain ⟨tr, pkt, bin, tail, hown, hquiet, hdec⟩ := UDPClient.processIncoming_at hc rfl hlead
    generalize ht : Prog.op (Op.deliver ch p) k = t at hdec
    cases hdec with
    | found ref res =>
      match res with
      | none => cases ht
      | some none => cases ht
      | some (some ch') =>
        cases ht
        exact .inr ⟨ref, tr, bin, hown, hquiet⟩
    | _ => cases ht

/-- A lookup comes after the decoding, and finds what stands in the table. -/
theorem lookup_source (hc : c.Quiet) (happ : ∀ call, Uses c (app call))
    (h : (c.machine app).run UDPClient.start evs = .ok s) {i : Nat} {ref : GoString}
    {res : Option (Option Nat)} (hlog : s.log = pre ++ .act i (.lookup ref) res :: post) :
    res = (replay pre).requests.get? ref ∧ ∃ tr p bin, (∀ y ∈ tr, y.1.quiet = true) ∧
      own i pre = tr ++ [⟨.call p (.unmarshal bin), none⟩, ⟨.read p (.metaGet keyRef), ref⟩] := by
  obtain ⟨s₁, k, choice, st, o, x, rfl, -, hh, -, hlead⟩ := explained_act h hlog
  refine ⟨?_, ?_⟩
  · cases hh
    exact congrArg (GoMap.get? · ref) x.requests
  · cases o with
    | app call =>
      obtain ⟨hanswers, -⟩ := (hlead.allOps ((happ call).allOps hc)).2
      cases hanswers
    | failedWrite respCh err =>
      obtain ⟨hreq, -⟩ := (hlead.allOps (UDPClient.writeError_allOps respCh err)).2
      cases hreq
    | incoming data =>
      obtain ⟨tr, pkt, bin, tail, hown, hquiet, hdec⟩ := UDPClient.processIncoming_at hc rfl hlead
      generalize ht : Prog.op (Op.lookup ref) k = t at hdec
      cases hdec with
      | named ref' =>
        cases ht
        exact ⟨tr, pkt, bin, hquiet, hown⟩
      | found ref' res =>
        match res with
        | none => cases ht
        | some none => cases ht
        | some (some ch) => cases ht
      | _ => cases ht

/-- A deletion comes after the offer. -/
theorem unregister_source (hc : c.Quiet) (happ : ∀ call, Uses c (app call))
    (h : (c.machine app).run UDPClient.start evs = .ok s) {i : Nat} {ref : GoString}
    (hlog : s.log = pre ++ .act i (.unregister ref) () :: post) :
    ∃ tr p bin res, (∀ y ∈ tr, y.1.quiet = true) ∧
      own i pre = tr ++ foundSteps p bin ref res ++ [UDPClient.offerStep p res] := by
  obtain ⟨s₁, k, choice, st, o, -, -, -, -, -, hlead⟩ := explained_act h hlog
  cases o with
  | app call =>
    obtain ⟨hanswers, -⟩ := (hlead.allOps ((happ call).allOps hc)).2
    cases hanswers
  | failedWrite respCh err =>
    obtain ⟨hreq, -⟩ := (hlead.allOps (UDPClient.writeError_allOps respCh err)).2
    cases hreq
  | incoming data =>
    obtain ⟨tr, pkt, bin, tail, hown, hquiet, hdec⟩ := UDPClient.processIncoming_at hc rfl hlead
    generalize ht : Prog.op (Op.unregister ref) k = t at hdec
    cases hdec with
    | offered ref' res =>
      cases ht
      exact ⟨tr, pkt, bin, res, hquiet, by simp [hown, foundSteps]⟩
    | found ref' res =>
      match res with
      | none => cases ht
      | some none => cases ht
      | some (some ch) => cases ht
    | _ => cases ht

/-! ## 2. Where requests come from -/

/-- Hand-offs and registrations are those of goroutines of the application. -/
theorem requests_own (hc : c.Quiet) (happ : ∀ call, Uses c (app call))
    (h : (c.machine app).run UDPClient.start evs = .ok s) (i : Nat) : Requests (own i s.log) := by
  have x := run_explained h
  cases ho : (replay s.log).origins[i]? with
  | none =>
    rw [own_eq_nil x.tids (x.length_eq ▸ List.getElem?_eq_none_iff.mp ho)]
    exact .of_no_sends fun y hy => absurd hy List.not_mem_nil
  | some o =>
    obtain ⟨t, -, hlead⟩ := x.leads i o ho
    cases o with
    | app call => exact .of_uses hc (happ call) hlead
    | incoming data =>
      obtain ⟨hops, -⟩ := hlead.allOps (UDPClient.processIncoming_allOps hc data)
      exact .of_no_sends hops
    | failedWrite respCh err =>
      obtain ⟨hops, -⟩ := hlead.allOps (UDPClient.writeError_allOps respCh err)
      exact .of_no_sends fun y hy => Op.sends_of_requests (hops y hy)

/-- A failed write is that of a request which was handed off. -/
theorem requested_of_failure (hc : c.Quiet) (happ : ∀ call, Uses c (app call))
    (h : (c.machine app).run UDPClient.start evs = .ok s) {i ch : Nat} {err : GoString}
    (ho : (replay s.log).origins[i]? = some (.failedWrite ch err)) :
    ∃ j pkt ref, Requested pkt (some ch) ref (own j s.log) := by
  have hpos : 0 < s.log.countP (Entry.handsOff ch) := by
    refine Nat.lt_of_lt_of_le ?_ (Nat.le_trans (Nat.le_add_right _ _) (failures_le s.log ch))
    exact List.countP_pos_iff.mpr ⟨_, List.mem_of_getElem? ho, by simp [Origin.failed]⟩
  obtain ⟨y, hy, hhand⟩ := List.countP_pos_iff.mp hpos
  obtain ⟨j, data, rfl⟩ := eq_of_handsOff hhand
  obtain ⟨pkt, ref, hreq⟩ := (requests_own hc happ h j).handed data _ (mem_own.mpr hy)
  exact ⟨j, pkt, ref, hreq⟩

/-- What a lookup finds was registered by a `Send` with the ref. -/
theorem requested_of_found (hc : c.Quiet) (happ : ∀ call, Uses c (app call))
    (h : (c.machine app).run UDPClient.start evs = .ok s) {i ch : Nat} {ref : GoString}
    (hfound : Entry.act i (.lookup ref) (some (some ch)) ∈ s.log) :
    ∃ j pkt, Requested pkt (some ch) ref (own j s.log) := by
  obtain ⟨pre, post, hlog⟩ := List.append_of_mem hfound
  obtain ⟨hget, -⟩ := lookup_source hc happ h hlog
  obtain ⟨as, j, bs, hpre, -⟩ := registration_of_get? hget.symm
  have hreg : Entry.act j (.register ref (some ch)) () ∈ s.log := by
    rw [hlog, hpre]
    simp
  obtain ⟨pkt, hreq⟩ := (requests_own hc happ h j).registered ref _ (mem_own.mpr hreg)
  exact ⟨j, pkt, hreq⟩

/-! ## 3. A packet that decodes is offered once -/

/-- The packets goroutine `i` has offered. -/
def offers (i : Nat) (log : List (Entry Op Op.Res (UDPClient.Env α))) : List (Option Nat × Nat) :=
  (own i log).filterMap Step.offer?

theorem unregister_afterDecode (p : Nat) (ref : GoString) :
    (Routine.perform (.unregister ref)).AllOps fun e => e.afterDecode p :=
  ⟨trivial, fun _ => trivial⟩

theorem offer_afterDecode (p : Nat) (ref : GoString) (res : Option (Option Nat)) :
    (UDPClient.offer p res >>= fun _ => Routine.perform (.unregister ref)).AllOps
      fun e => e.afterDecode p := by
  refine Prog.allOps_bind ?_ fun _ => unregister_afterDecode p ref
  match res with
  | none => exact ⟨trivial, fun _ => trivial⟩
  | some none => exact ⟨trivial, fun _ => trivial⟩
  | some (some ch) => exact ⟨trivial, fun _ => trivial⟩

theorem answer_afterDecode (p : Nat) (ref : GoString) :
    (UDPClient.answer ref p).AllOps fun e => e.afterDecode p := by
  rw [UDPClient.answer_eq]
  exact Prog.allOps_op trivial fun res => offer_afterDecode p ref res

/-- Once a goroutine has decoded its packet, it has still to offer it, or has offered it. -/
theorem offers_of_decoding {p q : Nat} {bin data : Bytes} {tail : List Step} {t : Routine Unit}
    (h : UDPClient.Decoding q data tail t) (hdec : ⟨.call p (.unmarshal bin), none⟩ ∈ tail) :
    t.AllOps (fun e => e.afterDecode p) ∧
      ((∃ respCh, tail.filterMap Step.offer? = [(respCh, p)]) ∨
        tail.filterMap Step.offer? = [] ∧ t ≠ pure ()) := by
  cases h with
  | before => simp at hdec
  | refused err => simp at hdec
  | decoded =>
    obtain ⟨rfl, rfl⟩ : p = q ∧ bin = data := by simpa using hdec
    exact ⟨Prog.allOps_op rfl fun ref => answer_afterDecode p ref, .inr ⟨rfl, fun h => by cases h⟩⟩
  | named ref =>
    obtain ⟨rfl, rfl⟩ : p = q ∧ bin = data := by simpa using hdec
    refine ⟨answer_afterDecode p ref, .inr ⟨rfl, fun h => ?_⟩⟩
    rw [UDPClient.answer_eq] at h
    cases h
  | found ref res =>
    obtain ⟨rfl, rfl⟩ : p = q ∧ bin = data := by simpa using hdec
    refine ⟨offer_afterDecode p ref res, .inr ⟨rfl, fun h => ?_⟩⟩
    match res with
    | none => cases h
    | some none => cases h
    | some (some ch) => cases h
  | offered ref res =>
    obtain ⟨rfl, rfl⟩ : p = q ∧ bin = data := by
      simpa [ne_offerStep (y := ⟨.call p (.unmarshal bin), none⟩) rfl] using hdec
    refine ⟨unregister_afterDecode p ref, .inl ⟨res.join, ?_⟩⟩
    show [UDPClient.offerStep p res].filterMap Step.offer? = _
    rw [List.filterMap_cons_some (offer?_offerStep p res)]
    rfl
  | deleted ref res =>
    obtain ⟨rfl, rfl⟩ : p = q ∧ bin = data := by
      simpa [ne_offerStep (y := ⟨.call p (.unmarshal bin), none⟩) rfl] using hdec
    refine ⟨trivial, .inl ⟨res.join, ?_⟩⟩
    show [UDPClient.offerStep p res, ⟨.unregister ref, ()⟩].filterMap Step.offer? = _
    rw [List.filterMap_cons_some (offer?_offerStep p res)]
    rfl

/-- A goroutine that has decoded `p` has still to offer it, or has offered it once. -/
theorem offers_of_decoded (hc : c.Quiet) (h : (c.machine app).run UDPClient.start evs = .ok s)
    {i p : Nat} {data bin : Bytes} (ho : (replay s.log).origins[i]? = some (.incoming data))
    (hdec : Entry.act i (.call p (.unmarshal bin)) none ∈ s.log) :
    ∃ t, s.threads[i]? = some t ∧ t.AllOps (fun e => e.afterDecode p) ∧
      ((∃ respCh, offers i s.log = [(respCh, p)]) ∨ offers i s.log = [] ∧ t ≠ pure ()) := by
  obtain ⟨t, ht, hlead⟩ := (run_explained h).leads i _ ho
  have hmem : ⟨.call p (.unmarshal bin), none⟩ ∈ own i s.log := mem_own.mpr hdec
  rcases UDPClient.processIncoming_leads hc hlead with hquiet | ⟨tr, q, bin', tail, hown, hquiet, hd⟩
  · cases hquiet _ hmem
  · have hnone : tr.filterMap Step.offer? = [] :=
      List.filterMap_eq_nil_iff.mpr fun y hy => Step.offer?_of_quiet (hquiet y hy)
    have hoffers : offers i s.log = tail.filterMap Step.offer? := by
      rw [offers, hown, List.filterMap_append, hnone, List.nil_append]
    rw [hown] at hmem
    rcases List.mem_append.mp hmem with hmem | hmem
    · cases hquiet _ hmem
    · rw [hoffers]
      exact ⟨t, ht, offers_of_decoding hd hmem⟩

/-- A packet object does not go away. -/
theorem handle_mem_le {st st' : Endpoint} {choice : Choice} {e : Op} {r : e.Res}
    (hh : st.handle choice e = .ok (r, st')) : st.pkts.mem.length ≤ st'.pkts.mem.length := by
  cases e with
  | poolGet =>
    cases hh
    show _ ≤ ((st.pkts.get choice.pick).2).mem.length
    unfold PktPool.get
    split
    · exact Nat.le_refl _
    · simp [PktPool.alloc]
  | poolPut p =>
    cases hh
    show _ ≤ (st.pkts.put p).mem.length
    unfold PktPool.put
    split
    · exact Nat.le_refl _
    · exact Nat.le_refl _
  | call p op =>
    obtain ⟨pkt, q, -, -, -, rfl⟩ := Endpoint.handle_call_ok hh
    simp [PktPool.setPkt]
  | _ => exact Nat.le_of_eq (congrArg (·.mem.length) ((Endpoint.handle_frame hh).1 rfl)).symm

theorem env_mem {st st' : Endpoint} {a : UDPClient.Env α} {t : Option (Routine Unit)}
    (he : c.env app st a = some (st', t)) : st'.pkts.mem = st.pkts.mem := by
  cases t with
  | none =>
    rcases UDPClient.env_quiet he with rfl | ⟨n, -, rfl⟩
    · rfl
    · rfl
  | some t =>
    rcases UDPClient.env_spawn he with ⟨call, -, rfl, -⟩ | ⟨data, -, rfl, -⟩ |
      ⟨err, w, ch, -, -, -, rfl, -⟩
    · rfl
    · rfl
    · rfl

/-- A packet that has been called is there. -/
theorem called_lt (h : (c.machine app).run UDPClient.start evs = .ok s) {i p : Nat} {op : PktOp}
    {r : Op.Res (.call p op)} (hcall : Entry.act i (.call p op) r ∈ s.log) :
    p < s.state.pkts.mem.length := by
  refine Machine.run_invariant (M := c.machine app)
    (I := fun s => ∀ i p op (r : Op.Res (.call p op)), Entry.act i (.call p op) r ∈ s.log →
      p < s.state.pkts.mem.length) ?_ (fun _ _ _ _ h => absurd h List.not_mem_nil) h i p op r hcall
  intro s ev s' ih hstep i p op r hmem
  rcases Machine.step_ok hstep with ⟨j, choice, e, k, r', st, -, -, hh, rfl⟩ | ⟨a, st, -, he, rfl⟩ |
    ⟨a, st, t, -, he, rfl⟩
  · have hle : s.state.pkts.mem.length ≤ st.pkts.mem.length := handle_mem_le hh
    rcases List.mem_append.mp hmem with hmem | hmem
    · exact Nat.lt_of_lt_of_le (ih i p op r hmem) hle
    · cases List.mem_singleton.mp hmem
      obtain ⟨pkt, q, hp, -, -, -⟩ := Endpoint.handle_call_ok (c := choice) hh
      exact Nat.lt_of_lt_of_le (List.getElem?_eq_some_iff.mp hp).1 hle
  · have hmem' : Entry.act i (.call p op) r ∈ s.log := by simpa using hmem
    show p < st.pkts.mem.length
    rw [env_mem he]
    exact ih i p op r hmem'
  · have hmem' : Entry.act i (.call p op) r ∈ s.log := by simpa using hmem
    show p < st.pkts.mem.length
    rw [env_mem he]
    exact ih i p op r hmem'

/-- Nothing holds a goroutine up that has decoded its packet. -/
theorem exists_execs_afterDecode {x : Routine Unit} {p : Nat} {st : Endpoint}
    (hx : x.AllOps fun e => e.afterDecode p) (hp : p < st.pkts.mem.length) :
    ∃ tr st', Execs Endpoint.handle x st tr () st' := by
  induction x generalizing st with
  | ret u => exact ⟨[], st, .ret _ _⟩
  | op e k ih =>
    have hgo : ∀ {r st₁}, Endpoint.handle st {} e = .ok (r, st₁) →
        p < st₁.pkts.mem.length → ∃ tr st', Execs Endpoint.handle (.op e k) st tr () st' := by
      intro r st₁ hh hp₁
      obtain ⟨tr, st', htr⟩ := ih r (hx.2 r) hp₁
      exact ⟨_, st', .op hh htr⟩
    cases e with
    | read q rd =>
      obtain rfl : q = p := hx.1
      have hread : Endpoint.handle st {} (.read q rd) = .ok (rd.eval st.pkts.mem[q], st) := by
        simp only [Endpoint.handle, List.getElem?_eq_getElem hp]
      exact hgo hread hp
    | lookup ref => exact hgo rfl hp
    | unregister ref => exact hgo rfl hp
    | deliver ch q => exact hgo rfl hp
    | misc q => exact hgo rfl hp
    | _ => exact hx.1.elim

/-- The packets offered on a response channel are those of the requests that were given
it; and a packet that decodes is offered on one channel, whatever the other goroutines
do. -/
theorem offers_accounted (hc : c.Quiet) (happ : ∀ call, Uses c (app call))
    (h : (c.machine app).run UDPClient.start evs = .ok s) :
    (∀ i ch p pre post, s.log = pre ++ Entry.act i (.deliver ch p) () :: post →
      (OffersFailure i ch p pre ∧ ∃ j pkt ref, Requested pkt (some ch) ref (own j s.log)) ∨
      ∃ ref, OffersAnswer i ch p ref pre ∧ ∃ j pkt, Requested pkt (some ch) ref (own j s.log)) ∧
    ∀ i p data bin, (replay s.log).origins[i]? = some (.incoming data) →
      Entry.act i (.call p (.unmarshal bin)) none ∈ s.log →
      ((∃ respCh, offers i s.log = [(respCh, p)]) ∨
        offers i s.log = [] ∧ s.threads[i]? ≠ some (pure ())) ∧
      ∃ evs' s' respCh, (c.machine app).run s evs' = .ok s' ∧ offers i s'.log = [(respCh, p)] := by
  refine ⟨fun i ch p pre post hlog => ?_, fun i p data bin ho hdec => ?_⟩
  · rcases offer_source hc happ h hlog with hfail | ⟨ref, hans⟩
    · obtain ⟨err, ho, -, -⟩ := id hfail
      exact .inl ⟨hfail, requested_of_failure hc happ h (hlog ▸ origin_append ho _)⟩
    · obtain ⟨tr, bin, hown, -⟩ := id hans
      refine .inr ⟨ref, hans, requested_of_found (i := i) hc happ h ?_⟩
      have hmem : ⟨.lookup ref, some (some ch)⟩ ∈ own i pre := by simp [hown, foundSteps]
      rw [hlog]
      exact List.mem_append_left _ (mem_own.mp hmem)
  · obtain ⟨t, ht, hops, hoffers⟩ := offers_of_decoded hc h ho hdec
    refine ⟨?_, ?_⟩
    · rcases hoffers with hone | ⟨hnil, hne⟩
      · exact .inl hone
      · exact .inr ⟨hnil, fun hret => hne (Option.some.inj (ht.symm.trans hret))⟩
    · -- the goroutine is let run to its end
      obtain ⟨tr, st', hexec⟩ := exists_execs_afterDecode hops (called_lt h hdec)
      obtain ⟨evs', hrun⟩ := Execs.run (M := c.machine app) hexec rfl ht
      have hall := Machine.run_append h hrun
      obtain ⟨t', ht', -, hoffers'⟩ := offers_of_decoded hc hall (origin_append ho _)
        (List.mem_append_left _ hdec)
      rcases hoffers' with ⟨respCh, hone⟩ | ⟨-, hne⟩
      · exact ⟨evs', _, respCh, hrun, hone⟩
      · rw [List.getElem?_set_self (List.getElem?_eq_some_iff.mp ht).1] at ht'
        exact absurd (Option.some.inj ht').symm hne

/-- A packet is offered on the channel. -/
def Entry.offersOn (ch : Nat) : Entry Op Op.Res (UDPClient.Env α) → Bool
  | .act _ (.deliver ch' _) _ => ch' == ch
  | _ => false

theorem eq_of_offersOn {x : Entry Op Op.Res (UDPClient.Env α)} {ch : Nat}
    (h : Entry.offersOn ch x = true) : ∃ i p, x = .act i (.deliver ch p) () := by
  cases x with
  | env a => cases h
  | act i e r =>
    cases e with
    | deliver ch' p =>
      obtain rfl : ch' = ch := by simpa [Entry.offersOn] using h
      exact ⟨i, p, rfl⟩
    | _ => cases h

end Delivery

/-- The response to the request with channel 7 is offered there, and it has its ref. -/
theorem response_accounted :
    ∃ s i p pre post, (requestClient.machine (request requestClient)).run UDPClient.start
        (requestRun 9 9) = .ok s ∧ s.log = pre ++ .act i (.deliver 7 p) () :: post ∧
      ((OffersFailure i 7 p pre ∧ ∃ j pkt ref, Requested pkt (some 7) ref (own j s.log)) ∨
        ∃ ref, OffersAnswer i 7 p ref pre ∧ ∃ j pkt, Requested pkt (some 7) ref (own j s.log)) := by
  have h : (((requestClient.machine (request requestClient)).run UDPClient.start
      (requestRun 9 9)).result?.map fun s => s.log.countP (Entry.offersOn 7)) = some 1 := by
    decide +kernel
  obtain ⟨s, hs, hcount⟩ := Option.map_eq_some_iff.mp h
  have hpos : 0 < s.log.countP (Entry.offersOn 7) := by rw [hcount]; exact Nat.one_pos
  obtain ⟨x, hx, hoffers⟩ := List.countP_pos_iff.mp hpos
  obtain ⟨i, p, rfl⟩ := eq_of_offersOn hoffers
  obtain ⟨pre, post, hlog⟩ := List.append_of_mem hx
  have hrun := Outcome.eq_ok_of_result? hs
  exact ⟨s, i, p, pre, post, hrun, hlog,
    (offers_accounted requestClient_quiet request_uses hrun).1 i 7 p pre post hlog⟩

end Concord
