import Concord.Go.Custody
import Concord.LinkInvariant
import Concord.ServiceLogic

/-!
# The server refines its service

`serves_each_once`: in every run of the server, with any number of requests at a time and in
any interleaving, the datagrams it has written are matched one to one with datagrams it has
received, each the answer `Service.Answers` gives to its own; once the goroutines are done,
the datagrams without a match are those that get no answer. And no such run panics.

`Tracked` is the invariant. A received datagram is owed by one goroutine, or is on its way to
`sendPkts`, or has been answered (`Custody`).
-/

namespace Concord

open Go

/-- A packet with one map takes every call. -/
theorem JSONPkt.Sound.exists_apply {c : JSONPkt} (h : c.Sound) (op : PktOp) :
    ∃ d, op.apply c = some d := by
  obtain ⟨v, hv, -⟩ := h
  by_cases hop : op.isEdit = true
  · obtain ⟨q, hq, -⟩ := hv.apply hop
    exact ⟨q, hq⟩
  · cases op with
    | unmarshal bin => exact ⟨_, rfl⟩
    | _ => exact absurd rfl hop

namespace Service

variable (svc : Service)

/-! ## 1. What is received and written -/

/-- The datagram an entry of the log receives. -/
def receives : Entry Op Op.Res UDPServer.Env → Option (Bytes × GoString)
  | .env (.datagram data sender) => some (data, sender)
  | _ => none

/-- The datagram an entry of the log hands to the writer. -/
def writes : Entry Op Op.Res UDPServer.Env → Option (Bytes × Addr)
  | .act _ (.dist data addr) _ => some (data, addr)
  | _ => none

def received (log : List (Entry Op Op.Res UDPServer.Env)) : List (Bytes × GoString) :=
  log.filterMap receives

def written (log : List (Entry Op Op.Res UDPServer.Env)) : List (Bytes × Addr) :=
  log.filterMap writes

theorem received_snoc (log : List (Entry Op Op.Res UDPServer.Env)) (x : Entry Op Op.Res UDPServer.Env) :
    received (log ++ [x]) = received log ++ (receives x).toList := by
  rw [received, List.filterMap_append]
  cases h : receives x <;> simp [h, received]

theorem written_snoc (log : List (Entry Op Op.Res UDPServer.Env)) (x : Entry Op Op.Res UDPServer.Env) :
    written (log ++ [x]) = written log ++ (writes x).toList := by
  rw [written, List.filterMap_append]
  cases h : writes x <;> simp [h, written]

theorem received_act (log : List (Entry Op Op.Res UDPServer.Env)) (i : Nat) (e : Op) (r : e.Res) :
    received (log ++ [.act i e r]) = received log :=
  (received_snoc _ _).trans (List.append_nil _)

theorem received_env {a : UDPServer.Env} (ha : ∀ data sender, a ≠ .datagram data sender)
    (log : List (Entry Op Op.Res UDPServer.Env)) : received (log ++ [.env a]) = received log := by
  refine (received_snoc _ _).trans ?_
  cases a with
  | datagram data sender => exact absurd rfl (ha data sender)
  | _ => exact List.append_nil _

theorem written_act {e : Op} (he : ∀ data addr, e ≠ .dist data addr)
    (log : List (Entry Op Op.Res UDPServer.Env)) (i : Nat) (r : e.Res) :
    written (log ++ [.act i e r]) = written log := by
  refine (written_snoc _ _).trans ?_
  cases e with
  | dist data addr => exact absurd rfl (he data addr)
  | _ => exact List.append_nil _

theorem written_env (log : List (Entry Op Op.Res UDPServer.Env)) (a : UDPServer.Env) :
    written (log ++ [.env a]) = written log :=
  (written_snoc _ _).trans (List.append_nil _)

/-! ## 2. The invariant -/

/-- What is known of the packet in the slot, when it is there for `d`. -/
def slot (d : Option (Bytes × GoString)) : Knowledge := { svc.knows d with dist := fun _ _ => True }

/-- Every datagram the server has received is in one place. -/
structure Tracked (s : Endpoint) (log : List (Entry Op Op.Res UDPServer.Env)) (gs : List Owed)
    (cur : Option (Bytes × GoString)) (spent : List ((Bytes × GoString) × (Bytes × Addr))) :
    Prop where
  owns : Owns (svc.slot cur) s (gs.map Prod.fst)
  sound : ∀ c ∈ s.pkts.mem, c.Sound
  empty : s.sending = none → cur = none
  custody : Custody (received log) (gs.map Prod.snd) cur (spent.map Prod.fst)
  written : written log = spent.map Prod.snd
  answers : ∀ m ∈ spent, svc.Answers m.1 (some m.2)

variable {svc} {s st : Endpoint} {log : List (Entry Op Op.Res UDPServer.Env)} {gs : List Owed}
  {cur : Option (Bytes × GoString)} {spent : List ((Bytes × GoString) × (Bytes × Addr))}

/-- With nothing in the slot, it may be there for anything. -/
theorem owns_slot {hs : List Heap} (o : Owns (svc.slot cur) s hs) (hs' : s.sending = none)
    (d : Option (Bytes × GoString)) : Owns (svc.slot d) s hs :=
  ⟨o.linear, o.heap, fun p hp => (by rw [hs'] at hp; cases hp), o.inbox, o.misc, o.keys, o.requests,
    o.writing⟩

/-- Apart from sends, the rules do not depend on the slot. -/
theorem ownRules_slot {d d' : Option (Bytes × GoString)} {e : Op} {h : Heap} {Φ : e.Res → Heap → Prop}
    (he : e.onSending = true → d' = d) (hΦ : ownRules (svc.knows d) e h Φ) :
    ownRules (svc.slot d') e h Φ := by
  cases e with
  | sendStream p =>
    rw [he rfl]
    exact hΦ
  | dist data addr => exact ⟨trivial, hΦ.2⟩
  | _ => exact hΦ

/-! ## 3. One step -/

/-- One operation of a goroutine. -/
theorem Tracked.act (t : svc.Tracked s log gs cur spent) {i : Nat} {c : Choice} {e : Op} {g : Owed}
    {Φ : e.Res → Owed → Prop} {r : e.Res} (hi : gs[i]? = some g) (hΦ : svc.rules e g Φ)
    (hh : s.handle c e = .ok (r, st)) :
    ∃ g' cur' spent', Φ r g' ∧ svc.Tracked st (log ++ [.act i e r]) (gs.set i g') cur' spent' := by
  obtain ⟨h, d⟩ := g
  obtain ⟨_, -, hlegible, -⟩ := Prog.Rules.spending_base hΦ
  have hsound := Endpoint.handle_sound t.sound hlegible hh
  have hget : ∀ x, s.pkts.pick c.pick = some x → x.Sound := Parties.sound_pick t.sound c.pick
  have hi₁ : (gs.map Prod.fst)[i]? = some h := by rw [List.getElem?_map, hi]; rfl
  have hi₂ : (gs.map Prod.snd)[i]? = some d := by rw [List.getElem?_map, hi]; rfl
  have hfst : ∀ h' d', (gs.set i (h', d')).map Prod.fst = (gs.map Prod.fst).set i h' :=
    fun _ _ => List.map_set
  have hsnd : ∀ h' d', (gs.set i (h', d')).map Prod.snd = (gs.map Prod.snd).set i d' :=
    fun _ _ => List.map_set
  have hempty : e.onSending = false → st.sending = none → cur = none := by
    intro hsend
    rw [(Endpoint.handle_frame hh).2.2.1 hsend]
    exact t.empty
  rcases Prog.Rules.spending_cases hΦ with
    ⟨hprice, -, -, hown⟩ | ⟨pays, q, hprice, rfl, -, -, -, hown⟩
  · obtain ⟨hsend, hdist⟩ := Op.of_not_spends (Op.toll_eq_none.mp hprice)
    obtain ⟨h', hΦ', hacted⟩ := t.owns.act hi₁
      (ownRules_slot (fun h => absurd h (Bool.eq_false_iff.mp hsend)) hown) (fun _ => hget) hh
    refine ⟨(h', d), cur, spent, hΦ' trivial, ?_, hsound, hempty hsend, ?_, ?_, t.answers⟩
    · rw [hfst]
      exact hacted.owns
    · rw [received_act, hsnd, set_self hi₂]
      exact t.custody
    · rw [written_act hdist]
      exact t.written
  · cases e with
    | sendStream p =>
      -- the packet goes into the slot, for the datagram the goroutine owes
      obtain ⟨hfree, -⟩ := Endpoint.handle_send_ok hh
      obtain ⟨h', hΦ', hacted⟩ := (owns_slot t.owns hfree (some q)).act hi₁
        (ownRules_slot (fun _ => rfl) hown) (fun h => nomatch h) hh
      have hcur := t.empty hfree
      refine ⟨(h', none), some q, spent, hΦ' trivial, ?_, hsound, ?_, ?_, ?_, t.answers⟩
      · rw [hfst]
        exact hacted.owns
      · obtain ⟨-, rfl⟩ := Endpoint.handle_send_ok hh
        exact fun h => nomatch h
      · rw [received_act, hsnd]
        exact (hcur ▸ t.custody).park hi₂
      · rw [written_act (e := .sendStream p) fun _ _ h => nomatch h]
        exact t.written
    | dist data addr =>
      -- the datagram is answered
      obtain ⟨⟨_, hq, hans⟩, -⟩ := id hown
      cases hq
      obtain ⟨h', hΦ', hacted⟩ := t.owns.act hi₁ (ownRules_slot (fun h => by cases h) hown)
        (fun _ => hget) hh
      refine ⟨(h', none), cur, spent ++ [(q, (data, addr))], hΦ' trivial, ?_, hsound, hempty rfl, ?_,
        ?_, ?_⟩
      · rw [hfst]
        exact hacted.owns
      · rw [received_act, hsnd, List.map_append]
        exact t.custody.discharge hi₂
      · rw [List.map_append, ← t.written]
        exact written_snoc _ _
      · intro m hm
        rcases List.mem_append.mp hm with hm | hm
        · exact t.answers m hm
        · rw [List.mem_singleton.mp hm]
          exact hans
    | _ => cases hprice

/-- `readPkts` starts a goroutine for a datagram. -/
theorem Tracked.datagram (t : svc.Tracked s log gs cur spent) (data : Bytes) (sender : GoString) :
    svc.Tracked s (log ++ [.env (.datagram data sender)]) (gs ++ [([], some (data, sender))]) cur
      spent where
  owns := by
    rw [List.map_append]
    exact t.owns.spawn
  sound := t.sound
  empty := t.empty
  custody := by
    rw [List.map_append, received_snoc]
    exact t.custody.come _
  written := (written_env _ _).trans t.written
  answers := t.answers

/-- `sendPkts` starts a goroutine for the packet in the slot. -/
theorem Tracked.sendPkts (t : svc.Tracked s log gs cur spent) {p : Nat} (hp : s.sending = some p) :
    ∃ q v h, Heap.Has h p v ∧ svc.Handles q (some v) ∧
      svc.Tracked { s with sending := none } (log ++ [.env .sendPkts]) (gs ++ [(h, some q)]) none
        spent := by
  obtain ⟨c, -, ⟨q, v, rfl, hc, hv⟩, o⟩ := t.owns.spawnSend hp
  refine ⟨q, v, [(p, c)], ⟨c, List.mem_singleton_self _, hc⟩, hv, ?_, t.sound, fun _ => rfl, ?_,
    (written_env _ _).trans t.written, t.answers⟩
  · rw [List.map_append]
    exact owns_slot o rfl none
  · rw [List.map_append, received_env (a := .sendPkts) fun _ _ h => nomatch h]
    exact t.custody.take

/-- The proof system of the server. -/
def logic (svc : Service) : Logic svc.server.machine Owed where
  rules := svc.rules
  mono := svc.rules_mono
  inv s log gs := ∃ cur spent, svc.Tracked s log gs cur spent
  final := svc.settled
  allowed _ ev := ∀ data sender, ev = .env (.datagram data sender) → Legible data
  mayCrash := False
  act := by
    rintro s i c e k gs g Φ ht - ⟨cur, spent, t⟩ hi hΦ
    split
    · next r st hh =>
      obtain ⟨g', cur', spent', hΦ', t'⟩ := t.act hi hΦ hh
      exact ⟨g', hΦ', cur', spent', t'⟩
    · trivial
    · next hcrash =>
      rcases Endpoint.handle_crash hcrash with rfl | ⟨p, op, pkt, rfl, hp, hq⟩
      · obtain ⟨_, hprompt, -⟩ := Prog.Rules.spending_base hΦ
        cases hprompt
      · obtain ⟨d, hd⟩ := (t.sound pkt (List.mem_of_getElem? hp)).exists_apply op
        rw [hq] at hd
        cases hd
  env := by
    rintro s a gs st - ⟨cur, spent, t⟩ he
    obtain ⟨n, rfl, rfl⟩ := UDPServer.env_quiet he
    refine ⟨cur, spent, t.owns.drop n, t.sound, t.empty, ?_, (written_env _ _).trans t.written,
      t.answers⟩
    rw [received_env (a := .gc n) fun _ _ h => nomatch h]
    exact t.custody
  spawn := by
    rintro s a gs st f ha - ⟨cur, spent, t⟩ he
    rcases UDPServer.env_spawn he with ⟨data, sender, rfl, rfl, rfl⟩ | ⟨p, rfl, hp, rfl, rfl⟩
    · exact ⟨_, processIncoming_owed (ha data sender rfl), cur, spent, t.datagram data sender⟩
    · obtain ⟨q, v, h, hv, hq, t'⟩ := t.sendPkts hp
      exact ⟨_, processOutgoing_owed hv hq, none, spent, t'⟩

theorem logic_start : svc.logic.Holds UDPServer.start :=
  ⟨[], rfl, ⟨none, [], Owns.init _,
    (fun c hc => by simp [UDPServer.start, Endpoint.init, PktPool.empty] at hc),
    fun _ => rfl, .start, rfl, fun _ hm => nomatch hm⟩,
    fun i t g ht => by simp [UDPServer.start] at ht⟩

/-! ## 4. Every run -/

/-- All goroutines have ended, and no packet is on its way to `sendPkts`. -/
def Quiescent (s : Sys Op Op.Res Endpoint UDPServer.Env) : Prop :=
  s.state.sending = none ∧ ∀ t ∈ s.threads, t = .ret ()

theorem eachAllowed_of_legible {evs : List (Event Choice UDPServer.Env)}
    (hleg : ∀ data sender, Event.env (.datagram data sender) ∈ evs → Legible data)
    (s : Sys Op Op.Res Endpoint UDPServer.Env) :
    svc.server.machine.EachAllowed svc.logic.allowed s evs := by
  induction evs generalizing s with
  | nil => trivial
  | cons ev evs ih =>
    refine ⟨fun data sender h => hleg data sender (h ▸ List.mem_cons_self), ?_⟩
    split
    · next s' _ => exact ih (fun data sender h => hleg data sender (List.mem_cons_of_mem _ h)) s'
    · trivial

/-- The datagrams that are written are answers to datagrams that were received, each to its
own. -/
theorem matched_of_holds {s : Sys Op Op.Res Endpoint UDPServer.Env} (h : svc.logic.Holds s) :
    ∃ (spent : List ((Bytes × GoString) × (Bytes × Addr))) (rest : List (Bytes × GoString)),
      (received s.log).Perm (spent.map Prod.fst ++ rest) ∧ written s.log = spent.map Prod.snd ∧
      (∀ m ∈ spent, svc.Answers m.1 (some m.2)) ∧
      (Quiescent s → ∀ q ∈ rest, svc.Answers q none) := by
  obtain ⟨gs, hlen, ⟨cur, spent, t⟩, hwp⟩ := h
  refine ⟨spent, (gs.map Prod.snd).reduceOption ++ cur.toList, ?_, t.written, t.answers, ?_⟩
  · refine t.custody.trans ?_
    rw [← List.append_assoc]
    exact List.perm_append_comm
  · rintro ⟨hfree, hdone⟩ q hq
    rw [t.empty hfree, Option.toList_none, List.append_nil, List.reduceOption_mem_iff,
      List.mem_map] at hq
    obtain ⟨g, hg, hq⟩ := hq
    obtain ⟨i, hi⟩ := List.mem_iff_getElem?.mp hg
    -- the goroutine that owes it has ended, so it may keep it
    obtain ⟨f, hf⟩ : ∃ f, s.threads[i]? = some f :=
      ⟨_, List.getElem?_eq_getElem (hlen ▸ (List.getElem?_eq_some_iff.mp hi).1)⟩
    have hfinal := hwp i f g hf hi
    rw [hdone f (List.mem_of_getElem? hf)] at hfinal
    exact hfinal q hq

/-- In every run of a server, the datagrams it has written are answers to datagrams it has
received, each to its own; when it is quiescent, the others get no answer. No run panics. -/
theorem serves_each_once (svc : Service) {evs : List (Event Choice UDPServer.Env)}
    (hleg : ∀ data sender, Event.env (.datagram data sender) ∈ evs → Legible data) :
    svc.server.machine.run UDPServer.start evs ≠ .crash ∧
    ∀ s, svc.server.machine.run UDPServer.start evs = .ok s →
      ∃ (spent : List ((Bytes × GoString) × (Bytes × Addr))) (rest : List (Bytes × GoString)),
        (received s.log).Perm (spent.map Prod.fst ++ rest) ∧ written s.log = spent.map Prod.snd ∧
        (∀ m ∈ spent, svc.Answers m.1 (some m.2)) ∧
        (Quiescent s → ∀ q ∈ rest, svc.Answers q none) := by
  have ha := svc.eachAllowed_of_legible hleg UDPServer.start
  exact ⟨fun hcrash => svc.logic.run_crash logic_start ha hcrash,
    fun s hs => matched_of_holds (svc.logic.run_holds logic_start ha hs)⟩

/-! ### A run -/

/-- The echo server receives one request, and its goroutines run to their ends. -/
def echoRun : List (Event Choice UDPServer.Env) :=
  .env (.datagram (helloView (ascii "r1")).marshal (ascii "10.0.0.2:1")) ::
    (List.replicate 20 (.act 0 ⟨100, none⟩) ++ .env .sendPkts ::
      List.replicate 4 (.act 1 ⟨100, none⟩))

theorem echoRun_legible (data : Bytes) (sender : GoString)
    (h : Event.env (.datagram data sender) ∈ echoRun) : Legible data := by
  simp only [echoRun, List.mem_cons, List.mem_append, List.mem_replicate, Event.env.injEq,
    UDPServer.Env.datagram.injEq, reduceCtorEq, and_false, or_false] at h
  rw [h.1]
  exact .inr ⟨helloView _, ⟨_, rfl⟩, rfl⟩

/-- It writes one datagram, the answer to the request. -/
theorem echo_served_once :
    ∃ s out, echoService.server.machine.run UDPServer.start echoRun = .ok s ∧
      written s.log = [out] ∧
      echoService.Answers ((helloView (ascii "r1")).marshal, ascii "10.0.0.2:1") (some out) := by
  have h : ((echoService.server.machine.run UDPServer.start echoRun).result?.bind fun s =>
      if received s.log = [((helloView (ascii "r1")).marshal, ascii "10.0.0.2:1")] ∧
        (written s.log).length = 1 then some () else none) = some () := by
    decide +kernel
  simp only [Option.bind_eq_some_iff, Option.ite_none_right_eq_some] at h
  obtain ⟨s, hs, ⟨hreceived, hlength⟩, -⟩ := h
  have hrun := Outcome.eq_ok_of_result? hs
  obtain ⟨spent, rest, hperm, hwritten, hans, -⟩ :=
    (serves_each_once echoService echoRun_legible).2 s hrun
  obtain ⟨out, hout⟩ := List.length_eq_one_iff.mp hlength
  obtain ⟨m, rfl⟩ : ∃ m, spent = [m] := by
    refine List.length_eq_one_iff.mp ?_
    rw [← List.length_map Prod.snd, ← hwritten, hlength]
  have hq : m.1 ∈ received s.log := hperm.mem_iff.mpr List.mem_cons_self
  rw [hreceived, List.mem_singleton] at hq
  have hm : m.2 = out := by simpa using hwritten.symm.trans hout
  have hanswer := hans m List.mem_cons_self
  rw [hq, hm] at hanswer
  exact ⟨s, out, hrun, hout, hanswer⟩

end Service

end Concord
