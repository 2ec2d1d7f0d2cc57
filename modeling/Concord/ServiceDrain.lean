import Concord.Go.Drain
import Concord.ServiceRefinement

/-!
# The server can always finish

`comes_to_rest`: whatever requests a server has received and however far its goroutines have
come, it can finish all of them without any further datagram. Then every datagram received so
far that has an answer has been answered, once.

Only a send on `sendStream` ever waits, and only until `sendPkts` has taken the packet before
it; the goroutine that is started for that packet sends nothing itself.
-/

namespace Concord

open Go

namespace Service

variable {svc : Service}

/-- The goroutine of a packet never waits. -/
theorem processOutgoing_quiet (p : Nat) :
    (svc.server.processOutgoing p).AllOps fun e => ¬ e.onSending = true := by
  have hno : ∀ {e : Op}, e.onSending = false → ¬ e.onSending = true :=
    fun h => Bool.not_eq_true _ ▸ h
  refine Prog.allOps_op (hno rfl) fun bin => Prog.allOps_op (hno rfl) fun dest => ?_
  cases svc.server.resolve dest with
  | none => exact ⟨hno rfl, fun _ => trivial⟩
  | some addr =>
    refine Prog.allOps_bind ?_ fun _ => ⟨hno rfl, fun _ => trivial⟩
    change (if codeContinue ≠ codeStopNoop then Routine.perform (.dist bin addr)
      else pure () : Routine Unit).AllOps _
    exact Prog.allOps_ite (fun _ => ⟨hno rfl, fun _ => trivial⟩) fun _ => trivial

/-- An operation that does not wait can be performed. -/
theorem exists_handle {s : Endpoint} {log : List (Entry Op Op.Res UDPServer.Env)} {gs : List Owed}
    {cur : Option (Bytes × GoString)} {spent : List ((Bytes × GoString) × (Bytes × Addr))}
    (t : svc.Tracked s log gs cur spent) {i : Nat} {g : Owed} (hi : gs[i]? = some g) {e : Op}
    {Φ : e.Res → Owed → Prop} (hΦ : svc.rules e g Φ) (he : ¬ e.onSending = true) :
    ∃ c r st, s.handle c e = .ok (r, st) := by
  obtain ⟨_, hprompt, -, hown⟩ := Prog.Rules.spending_base hΦ
  have hmem : ∀ {p c}, (p, c) ∈ g.1 → s.pkts.mem[p]? = some c := fun hc =>
    t.owns.heap g.1 (List.mem_map_of_mem (List.mem_of_getElem? hi)) _ _ hc
  cases e with
  | call p op =>
    obtain ⟨c, hc, -⟩ := hown
    obtain ⟨d, hd⟩ := (t.sound c (List.mem_of_getElem? (hmem hc))).exists_apply op
    refine ⟨{}, op.error c, { s with pkts := s.pkts.setPkt p d }, ?_⟩
    simp only [Endpoint.handle, hmem hc, hd]
  | read p r =>
    obtain ⟨c, hc, -⟩ := hown
    refine ⟨{}, r.eval c, s, ?_⟩
    simp only [Endpoint.handle, hmem hc]
  | sendStream p => exact absurd rfl he
  | panic => cases hprompt
  | genRef => cases hprompt
  | writeStream data ch => cases hprompt
  | receive ch => cases hprompt
  | receiveMisc => cases hprompt
  | _ => exact ⟨{}, _, _, rfl⟩

theorem drains : Drains svc.logic (fun e => e.onSending = true) (fun a => a = .sendPkts)
    (fun s => s.sending = none) where
  allowed_act _ _ _ data sender h := nomatch h
  allowed_inner _ a ha data sender h := by
    subst ha
    cases h
  go := by
    rintro s i e k ⟨gs, hlen, ⟨cur, spent, t⟩, hwp⟩ ht he
    obtain ⟨g, hg⟩ := Logic.exists_ghost hlen ht
    have hΦ : svc.rules e g fun r g' => (k r).wp svc.rules g' fun _ g' => svc.settled g' :=
      hwp i _ g ht hg
    exact exists_handle t hg hΦ he
  free := by
    intro s i e k _ _ he
    cases e with
    | sendStream p =>
      cases hfree : s.state.sending with
      | none => exact .inl ⟨{}, (), { s.state with sending := some p }, by
          simp only [UDPServer.machine, Endpoint.handle, hfree]⟩
      | some q =>
        refine .inr ⟨.sendPkts, { s.state with sending := none }, svc.server.processOutgoing q, rfl,
          ?_, processOutgoing_quiet q, {}, (), { s.state with sending := some p }, rfl⟩
        simp only [UDPServer.machine, UDPServer.env, hfree, Option.map_some]
    | _ => cases he
  keeps := by
    intro s st c e r hs he hh
    rw [(Endpoint.handle_frame hh).2.2.1 (Bool.eq_false_iff.mpr he)]
    exact hs

/-- The steps by which it finishes receive nothing. -/
theorem received_comes {s s' : Sys Op Op.Res Endpoint UDPServer.Env}
    (h : svc.server.machine.Comes (fun a => a = .sendPkts) s s') :
    received s'.log = received s.log := by
  induction h with
  | refl => rfl
  | tail _ hstep ih =>
    rw [← ih]
    obtain ⟨ev, hev, hinner⟩ := hstep
    rcases Machine.step_ok hev with ⟨i, c, e, k, r, st, -, -, -, rfl⟩ | ⟨a, st, rfl, -, rfl⟩ |
      ⟨a, st, t, rfl, -, rfl⟩
    · exact received_act _ _ _ _
    · exact received_env (fun data sender h => by rw [hinner a rfl] at h; cases h) _
    · exact received_env (fun data sender h => by rw [hinner a rfl] at h; cases h) _

/-- Within the proof system, the server can finish. -/
theorem exists_quiescent {s : Sys Op Op.Res Endpoint UDPServer.Env} (hs : svc.logic.Holds s) :
    ∃ s', svc.server.machine.Comes (fun a => a = .sendPkts) s s' ∧ svc.logic.Holds s' ∧
      Quiescent s' := by
  obtain ⟨s₁, hcomes, hs₁, hdone⟩ := drains.drain hs
  cases hfree : s₁.state.sending with
  | none => exact ⟨s₁, hcomes, hs₁, hfree, hdone⟩
  | some p =>
    -- the last packet is still in the slot
    have henv : svc.server.machine.env s₁.state .sendPkts =
        some ({ s₁.state with sending := none }, some (svc.server.processOutgoing p)) := by
      simp only [UDPServer.machine, UDPServer.env, hfree, Option.map_some]
    have hstep := Drains.spawn_step henv
    have hs₂ := svc.logic.step_holds hs₁ (by intro data sender h; cases h) hstep
    obtain ⟨s', hcomes', hs', hdone', hcalm⟩ := drains.drain_quiet hs₂ fun u hu => by
      rcases List.mem_append.mp hu with hu | hu
      · rw [hdone u hu]
        trivial
      · rw [List.mem_singleton.mp hu]
        exact processOutgoing_quiet p
    exact ⟨s', (hcomes.tail ⟨_, hstep, fun a h => by cases h; rfl⟩).trans hcomes', hs', hcalm rfl, hdone'⟩

/-- From every state of every run, the server can finish by steps of its own. Then the datagrams
it has received are matched with the answers it has written, but for those that have none. -/
theorem comes_to_rest (svc : Service) {evs : List (Event Choice UDPServer.Env)}
    (hleg : ∀ data sender, Event.env (.datagram data sender) ∈ evs → Legible data)
    {s : Sys Op Op.Res Endpoint UDPServer.Env}
    (hrun : svc.server.machine.run UDPServer.start evs = .ok s) :
    ∃ evs' s', svc.server.machine.run s evs' = .ok s' ∧
      (∀ a, Event.env a ∈ evs' → a = .sendPkts) ∧ Quiescent s' ∧
      ∃ (spent : List ((Bytes × GoString) × (Bytes × Addr))) (rest : List (Bytes × GoString)),
        (received s.log).Perm (spent.map Prod.fst ++ rest) ∧ written s'.log = spent.map Prod.snd ∧
        (∀ m ∈ spent, svc.Answers m.1 (some m.2)) ∧ ∀ q ∈ rest, svc.Answers q none := by
  have hs := svc.logic.run_holds logic_start (svc.eachAllowed_of_legible hleg _) hrun
  obtain ⟨s', hcomes, hs', hquiet⟩ := exists_quiescent hs
  obtain ⟨evs', hrun', hinner⟩ := hcomes.run
  obtain ⟨spent, rest, hperm, hwritten, hans, hrest⟩ := matched_of_holds hs'
  rw [received_comes hcomes] at hperm
  exact ⟨evs', s', hrun', hinner, hquiet, spent, rest, hperm, hwritten, hans, hrest hquiet⟩

/-- The echo server, with a request that has just come in. -/
theorem echo_comes_to_rest :
    ∃ s evs' s', echoService.server.machine.run UDPServer.start (echoRun.take 1) = .ok s ∧
      echoService.server.machine.run s evs' = .ok s' ∧ Quiescent s' := by
  have hleg : ∀ data sender, Event.env (.datagram data sender) ∈ echoRun.take 1 → Legible data :=
    fun data sender h => echoRun_legible data sender (List.mem_of_mem_take h)
  obtain ⟨evs', s', hrun, -, hquiet, -⟩ := comes_to_rest echoService hleg rfl
  exact ⟨_, evs', s', rfl, hrun, hquiet⟩

end Service

end Concord
