import Concord.Delivery

/-!
# Races over the request table

Lookup, delivery and deletion in `processIncoming` are three steps, a write can fail after
the response has come, and `Send` registers whatever ref its packet has.

1. `offered_at_most_once`: in a run in which nobody looks a ref up while another goroutine
   is between its lookup and its deletion, and a write and its response do not cross, at
   most one packet is offered on the channel of a request. `duplicate_offered_twice`: a
   duplicated datagram is enough to break it.
2. `registrations_kept`: in a run in which a `Send` registers only refs that nobody uses,
   an entry stays until the goroutine that has found it deletes it.
   `registration_lost`: two requests with one ref lose an entry, by the second
   registration or by a late deletion.
-/

namespace Concord

open Go

section Races

variable {α : Type} {c : UDPClient} {app : α → Routine Unit}
  {s s' : Sys Op Op.Res Endpoint (UDPClient.Env α)} {evs : List (Event Choice (UDPClient.Env α))}

/-! ## 1. Conditions on the steps -/

/-- The goroutine that looks `ref` up. -/
def Entry.lookupBy? (ref : GoString) : Entry Op Op.Res (UDPClient.Env α) → Option Nat
  | .act i (.lookup ref') _ => if ref' = ref then some i else none
  | _ => none

def Entry.deletes (i : Nat) (ref : GoString) : Entry Op Op.Res (UDPClient.Env α) → Bool
  | .act j (.unregister ref') _ => j == i && ref' == ref
  | _ => false

/-- Some goroutine has looked `ref` up and has not yet deleted the entry. -/
def isOpen (ref : GoString) (log : List (Entry Op Op.Res (UDPClient.Env α))) : Bool :=
  (log.filterMap (Entry.lookupBy? ref)).any fun i => !log.any (Entry.deletes i ref)

/-- The lookup has found the channel `ch`. -/
def Entry.finds (ch : Nat) : Entry Op Op.Res (UDPClient.Env α) → Bool
  | .act _ (.lookup _) res => res == some (some ch)
  | _ => false

/-- A write for a request with channel `ch` has failed. -/
def hasFailed (ch : Nat) (log : List (Entry Op Op.Res (UDPClient.Env α))) : Bool :=
  (replay log).origins.any (Origin.failed ch)

/-- Lookups of a ref do not overlap, and a write fails before its response is looked up
or not at all. -/
def orderly (log : List (Entry Op Op.Res (UDPClient.Env α))) :
    Entry Op Op.Res (UDPClient.Env α) → Bool
  | .act _ (.lookup ref) _ => !isOpen ref log &&
    ((replay log).requests.get? ref).all fun respCh => respCh.all fun ch => !hasFailed ch log
  | .env (.writeFailed _) =>
    (replay log).writing.all fun respCh => respCh.all fun ch => !log.any (Entry.finds ch)
  | _ => true

/-- A `Send` registers a ref under which nothing stands and which no goroutine is busy
with. -/
def freshRef (log : List (Entry Op Op.Res (UDPClient.Env α))) :
    Entry Op Op.Res (UDPClient.Env α) → Bool
  | .act _ (.register ref _) _ => ((replay log).requests.get? ref).isNone && !isOpen ref log
  | _ => true

theorem eq_of_deletes {x : Entry Op Op.Res (UDPClient.Env α)} {i : Nat} {ref : GoString}
    (h : Entry.deletes i ref x = true) : x = .act i (.unregister ref) () := by
  cases x with
  | env a => cases h
  | act j e r =>
    cases e with
    | unregister ref' =>
      obtain ⟨rfl, rfl⟩ : j = i ∧ ref' = ref := by simpa [Entry.deletes] using h
      rfl
    | _ => cases h

theorem isOpen_of_mem {log : List (Entry Op Op.Res (UDPClient.Env α))} {i : Nat} {ref : GoString}
    {res : Option (Option Nat)} (hlook : Entry.act i (.lookup ref) res ∈ log)
    (hdel : ⟨.unregister ref, ()⟩ ∉ own i log) : isOpen ref log = true := by
  refine List.any_eq_true.mpr ⟨i, List.mem_filterMap.mpr ⟨_, hlook, if_pos rfl⟩, ?_⟩
  rw [Bool.not_eq_true', List.any_eq_false]
  intro y hy hdeletes
  exact hdel (mem_own.mpr (eq_of_deletes hdeletes ▸ hy))

theorem handsOff_of_step {i ch : Nat} {e : Op} {r : e.Res}
    (h : Step.handsOff ch ⟨e, r⟩ = true) :
    Entry.handsOff ch (Entry.act (ε := UDPClient.Env α) i e r) = true := by
  cases e with
  | writeStream data respCh =>
    obtain rfl : respCh = some ch := by simpa [Step.handsOff] using h
    simp [Entry.handsOff]
  | _ => cases h

/-! ## 2. At most one offer -/

/-- Before it offers a packet a goroutine has offered none. -/
theorem deliver_not_mem_own {i ch p ch' p' : Nat}
    {log : List (Entry Op Op.Res (UDPClient.Env α))}
    (hsource : OffersFailure i ch p log ∨ ∃ ref, OffersAnswer i ch p ref log) :
    ⟨.deliver ch' p', ()⟩ ∉ own i log := by
  intro hmem
  rcases hsource with ⟨err, -, hquiet, -⟩ | ⟨ref, tr, bin, hown, hquiet⟩
  · cases hquiet _ hmem
  · rw [hown] at hmem
    rcases List.mem_append.mp hmem with hmem | hmem
    · cases hquiet _ hmem
    · simp [foundSteps] at hmem

theorem offer_cause (hc : c.Quiet) (happ : ∀ call, Uses c (app call))
    (h : (c.machine app).run UDPClient.start evs = .ok s) {i ch p : Nat}
    {pre post : List (Entry Op Op.Res (UDPClient.Env α))}
    (hlog : s.log = pre ++ .act i (.deliver ch p) () :: post) :
    (∃ err, (replay s.log).origins[i]? = some (.failedWrite ch err)) ∨
      ∃ ref, Entry.act i (.lookup ref) (some (some ch)) ∈ s.log := by
  rcases offer_source hc happ h hlog with ⟨err, ho, -, -⟩ | ⟨ref, tr, bin, hown, -⟩
  · exact .inl ⟨err, hlog ▸ origin_append ho _⟩
  · have hmem : ⟨.lookup ref, some (some ch)⟩ ∈ own i pre := by simp [hown, foundSteps]
    exact .inr ⟨ref, hlog ▸ List.mem_append_left _ (mem_own.mp hmem)⟩

section Once

variable (hc : c.Quiet) (happ : ∀ call, Uses c (app call))
  (h : (c.machine app).run UDPClient.start evs = .ok s) {ch : Nat}
  (hone : s.log.countP (Entry.handsOff ch) ≤ 1)

include hc happ h hone

/-- A channel that is handed off once is registered once. -/
theorem register_once {i j : Nat} {ref ref' : GoString}
    {pre mid post : List (Entry Op Op.Res (UDPClient.Env α))}
    (hlog : s.log = pre ++ .act i (.register ref (some ch)) () ::
      (mid ++ .act j (.register ref' (some ch)) () :: post)) : False := by
  -- every registration is preceded by a hand-off of the same goroutine
  have hhand : ∀ k ref, Entry.act k (.register ref (some ch)) () ∈ s.log →
      ∃ data, Entry.act k (.writeStream data (some ch)) () ∈ s.log := by
    intro k ref hmem
    obtain ⟨pkt, pre, named, bin, between, data, post, hown, -, -⟩ :=
      (requests_own hc happ h k).registered ref _ (mem_own.mpr hmem)
    exact ⟨data, mem_own.mp (by rw [hown]; simp)⟩
  by_cases hij : i = j
  · subst hij
    have htwo : 2 ≤ (own i s.log).countP (Step.registers ch) := by
      rw [hlog, own_append, own_cons_self, own_append, own_cons_self]
      exact two_le_countP (by simp [Step.registers]) (by simp [Step.registers])
    have hle := countP_own_le (i := i) (q := Step.handsOff ch) (p := Entry.handsOff ch)
      (fun e r hq => handsOff_of_step hq) s.log
    have hcount := (requests_own hc happ h i).count_le ch
    omega
  · obtain ⟨data, hi⟩ := hhand i ref (by rw [hlog]; simp)
    obtain ⟨data', hj⟩ := hhand j ref' (by rw [hlog]; simp)
    have htwo : 2 ≤ s.log.countP (Entry.handsOff ch) :=
      two_le_countP_of_mem hi hj (fun heq => hij (Entry.act.inj heq).1) (by simp [Entry.handsOff])
        (by simp [Entry.handsOff])
    omega

theorem registration_unique {i j : Nat} {ref ref' : GoString}
    {pre pre' post post' : List (Entry Op Op.Res (UDPClient.Env α))}
    (hlog : s.log = pre ++ .act i (.register ref (some ch)) () :: post)
    (hlog' : s.log = pre' ++ .act j (.register ref' (some ch)) () :: post') :
    ref = ref' ∧ post = post' := by
  rcases append_cons_cases (hlog.symm.trans hlog') with ⟨es, -, rfl⟩ | ⟨-, heq, rfl⟩ | ⟨es, -, rfl⟩
  · exact (register_once hc happ h hone hlog).elim
  · cases heq
    exact ⟨rfl, rfl⟩
  · exact (register_once hc happ h hone hlog').elim

variable (horder : EachStep (fun log x => orderly log x = true) s.log)

include horder

/-- A channel is found by one lookup only: the entry goes before the next lookup. -/
theorem found_once {i j : Nat} {ref ref' : GoString}
    {pre mid post : List (Entry Op Op.Res (UDPClient.Env α))}
    (hlog : s.log = pre ++ .act i (.lookup ref) (some (some ch)) ::
      (mid ++ .act j (.lookup ref') (some (some ch)) :: post)) : False := by
  have hlog' : s.log = (pre ++ .act i (.lookup ref) (some (some ch)) :: mid) ++
      .act j (.lookup ref') (some (some ch)) :: post := by rw [hlog]; simp
  obtain ⟨hget, tr, p, bin, hquiet, hown⟩ := lookup_source hc happ h hlog
  obtain ⟨hget', -⟩ := lookup_source hc happ h hlog'
  obtain ⟨as, k, bs, hpre, hbs⟩ := registration_of_get? hget.symm
  obtain ⟨as', k', bs', hpre', hbs'⟩ := registration_of_get? hget'.symm
  -- both lookups find the one registration of the channel, so nothing has changed between
  -- them, and the first goroutine has not deleted the entry
  obtain ⟨rfl, hrest⟩ := registration_unique hc happ h hone
    (hlog.trans (by rw [hpre, List.append_assoc, List.cons_append]))
    (hlog'.trans (by rw [hpre', List.append_assoc, List.cons_append]))
  rw [← List.cons_append, ← List.append_assoc] at hrest
  have hmid := List.append_cancel_right hrest
  have hopen : isOpen ref (pre ++ .act i (.lookup ref) (some (some ch)) :: mid) = true := by
    have hlook : Entry.act i (.lookup ref) (some (some ch)) ∈
        pre ++ .act i (.lookup ref) (some (some ch)) :: mid := by simp
    refine isOpen_of_mem hlook fun hdel => ?_
    rw [own_append, own_cons_self, hown] at hdel
    rcases List.mem_append.mp hdel with hdel | hdel
    · rcases List.mem_append.mp hdel with hdel | hdel
      · cases hquiet _ hdel
      · simp at hdel
    · rcases List.mem_cons.mp hdel with hdel | hdel
      · cases hdel
      · have hsame := hbs' (.act i (.unregister ref) ()) (by
          rw [← hmid]
          exact List.mem_append_right _ (List.mem_cons_of_mem _ (mem_own.mp hdel)))
        simp [Entry.touches] at hsame
  have hstep : orderly _ _ = true := horder.of_append hlog'
  rw [orderly, hopen] at hstep
  cases hstep

omit hone in
/-- A channel whose write has failed is not found. -/
theorem failed_not_found {i j : Nat} {err ref : GoString}
    (hfail : (replay s.log).origins[i]? = some (.failedWrite ch err))
    (hfound : Entry.act j (.lookup ref) (some (some ch)) ∈ s.log) : False := by
  have hany : (replay s.log).origins.any (Origin.failed ch) = true :=
    List.any_eq_true.mpr ⟨_, List.mem_of_getElem? hfail, by simp [Origin.failed]⟩
  obtain ⟨pre, err', post, hlog, hw, hfailed⟩ := failure_of_origin hany
  obtain ⟨pre', post', hlog'⟩ := List.append_of_mem hfound
  have hwrite : orderly _ _ = true := horder.of_append hlog
  have hlook : orderly _ _ = true := horder.of_append hlog'
  obtain ⟨hget, -⟩ := lookup_source hc happ h hlog'
  rcases append_cons_cases (hlog.symm.trans hlog') with ⟨es, hes, -⟩ | ⟨-, heq, -⟩ | ⟨es, hes, -⟩
  · -- the failure came first
    have hany : hasFailed ch pre' = true := by
      obtain ⟨os, hos⟩ := replay_origins (pre ++ [.env (.writeFailed err')]) es
      rw [hasFailed, hes, ← List.singleton_append, ← List.append_assoc, ← hos, List.any_append,
        hfailed, Bool.true_or]
    rw [orderly, ← hget] at hlook
    simp [hany] at hlook
  · cases heq
  · -- the lookup came first
    have hany : pre.any (Entry.finds ch) = true :=
      List.any_eq_true.mpr ⟨.act j (.lookup ref) (some (some ch)), by simp [hes],
        by simp [Entry.finds]⟩
    rw [orderly, hw] at hwrite
    simp [hany] at hwrite

/-- At most one packet is offered on a response channel that was passed to one `Send`, if
the steps of the run are orderly. -/
theorem offered_at_most_once : s.log.countP (Entry.offersOn ch) ≤ 1 := by
  refine countP_le_one fun pre x mid y post hlog hx hy => ?_
  obtain ⟨i, p, rfl⟩ := eq_of_offersOn hx
  obtain ⟨j, q, rfl⟩ := eq_of_offersOn hy
  have hlog' : s.log = (pre ++ .act i (.deliver ch p) () :: mid) ++ .act j (.deliver ch q) () ::
      post := by rw [hlog]; simp
  have hij : i ≠ j := by
    rintro rfl
    have hbefore : Entry.act i (.deliver ch p) () ∈ pre ++ .act i (.deliver ch p) () :: mid := by simp
    exact deliver_not_mem_own (offer_source hc happ h hlog') (mem_own.mpr hbefore)
  rcases offer_cause hc happ h hlog with ⟨err, hi⟩ | ⟨ref, hi⟩
  · rcases offer_cause hc happ h hlog' with ⟨err', hj⟩ | ⟨ref', hj⟩
    · -- two failures would be two hand-offs
      refine hij (eq_of_countP_le_one (p := Origin.failed ch) ?_ hi hj (by simp [Origin.failed])
        (by simp [Origin.failed]))
      exact Nat.le_trans (Nat.le_add_right _ _) (Nat.le_trans (failures_le s.log ch) hone)
    · exact failed_not_found hc happ h horder hi hj
  · rcases offer_cause hc happ h hlog' with ⟨err', hj⟩ | ⟨ref', hj⟩
    · exact failed_not_found hc happ h horder hj hi
    · rcases exists_split_of_mem hi hj fun heq => hij (Entry.act.inj heq).1 with
        ⟨_, _, _, hsplit⟩ | ⟨_, _, _, hsplit⟩
      · exact found_once hc happ h hone horder hsplit
      · exact found_once hc happ h hone horder hsplit

end Once

/-! ## 3. No registration is lost -/

/-- A step that is not a deletion leaves every entry alone, if a registration is one of a
fresh ref. -/
theorem entry_kept {log : List (Entry Op Op.Res (UDPClient.Env α))}
    {x : Entry Op Op.Res (UDPClient.Env α)} (hfresh : freshRef log x = true)
    (hx : ∀ i ref, x ≠ .act i (.unregister ref) ()) {ref : GoString} {respCh : Option Nat}
    (hget : (replay log).requests.get? ref = some respCh) :
    (replay (log ++ [x])).requests.get? ref = some respCh := by
  rw [replay_snoc]
  cases x with
  | env a => rwa [Replay.step, Replay.env_requests]
  | act i e r =>
    cases e with
    | register ref' respCh' =>
      have hne : ref ≠ ref' := by
        rintro rfl
        rw [freshRef, hget] at hfresh
        cases hfresh
      simpa [Replay.step, Replay.act, hne] using hget
    | unregister ref' => exact absurd rfl (hx i ref')
    | _ => exact hget

/-- While a goroutine is between its lookup and its deletion, nobody registers the ref. -/
theorem no_register_between {i : Nat} {ref : GoString} {res : Option (Option Nat)}
    {pre mid : List (Entry Op Op.Res (UDPClient.Env α))}
    (hfresh : EachStep (fun log x => freshRef log x = true)
      (pre ++ .act i (.lookup ref) res :: mid))
    (hdel : ⟨.unregister ref, ()⟩ ∉ own i (pre ++ .act i (.lookup ref) res :: mid)) (j : Nat)
    (respCh : Option Nat) : Entry.act j (.register ref respCh) () ∉ mid := by
  intro hmem
  obtain ⟨as, bs, rfl⟩ := List.append_of_mem hmem
  have hlog : pre ++ .act i (.lookup ref) res :: (as ++ .act j (.register ref respCh) () :: bs) =
      (pre ++ .act i (.lookup ref) res :: as) ++ .act j (.register ref respCh) () :: bs := by simp
  have hstep : freshRef _ _ = true := hfresh.of_append hlog
  rw [hlog, own_append] at hdel
  have hlook : Entry.act i (.lookup ref) res ∈ pre ++ .act i (.lookup ref) res :: as := by simp
  rw [freshRef, isOpen_of_mem hlook fun hd => hdel (List.mem_append_left _ hd)] at hstep
  simp at hstep

/-- What stands in the table at the deletion, the lookup has found. -/
theorem found_of_standing {i : Nat} {ref : GoString} {res : Option (Option Nat)}
    {pre mid : List (Entry Op Op.Res (UDPClient.Env α))} {x : Option Nat}
    (hmid : ∀ j respCh, Entry.act j (.register ref respCh) () ∉ mid)
    (hget : (replay (pre ++ .act i (.lookup ref) res :: mid)).requests.get? ref = some x) :
    (replay pre).requests.get? ref = some x := by
  obtain ⟨as, j, bs, hlog, hbs⟩ := registration_of_get? hget
  rcases append_cons_cases hlog with ⟨es, -, rfl⟩ | ⟨-, heq, -⟩ | ⟨es, rfl, rfl⟩
  · exact absurd (List.mem_append_right _ List.mem_cons_self) (hmid j x)
  · cases heq
  · exact get?_of_registration fun y hy => hbs y (List.mem_append_left _ hy)

/-- In a run in which every `Send` registers a fresh ref, a step that is not a deletion
leaves every entry of the table alone, and a deletion takes at most the entry that its
goroutine has found and answered. -/
theorem registrations_kept (hc : c.Quiet) (happ : ∀ call, Uses c (app call))
    (h : (c.machine app).run UDPClient.start evs = .ok s) {ev : Event Choice (UDPClient.Env α)}
    (hstep : (c.machine app).step s ev = .ok s')
    (hfresh : EachStep (fun log x => freshRef log x = true) s'.log) :
    ((∀ i ref, s'.log ≠ s.log ++ [.act i (.unregister ref) ()]) →
      ∀ ref respCh, s.state.requests.get? ref = some respCh →
        s'.state.requests.get? ref = some respCh) ∧
    ∀ i ref, s'.log = s.log ++ [.act i (.unregister ref) ()] →
      ∃ pre res mid, s.log = pre ++ .act i (.lookup ref) res :: mid ∧
        (∀ j respCh, Entry.act j (.register ref respCh) () ∉ mid) ∧
        ∀ respCh, s.state.requests.get? ref = some respCh → res = some respCh ∧
          ∀ ch, respCh = some ch → ∃ p, Entry.act i (.deliver ch p) () ∈ s.log := by
  have hrun := Machine.run_snoc h hstep
  obtain ⟨x, hx⟩ := Machine.step_log hstep
  rw [(run_explained h).requests, (run_explained hrun).requests, hx]
  rw [hx] at hfresh
  refine ⟨fun hdel ref respCh hget => ?_, fun i ref hdel => ?_⟩
  · refine entry_kept (hfresh.of_append rfl) (fun i ref heq => hdel i ref ?_) hget
    rw [heq]
  · -- the goroutine has decoded, looked its ref up and answered
    obtain rfl := List.singleton_inj.mp (List.append_cancel_left hdel)
    obtain ⟨tr, p, bin, res, hquiet, hown⟩ := unregister_source hc happ hrun hx
    have hlook : ⟨.lookup ref, res⟩ ∈ own i s.log := by simp [hown, foundSteps]
    have hno : ⟨.unregister ref, ()⟩ ∉ own i s.log := by
      intro hmem
      rw [hown] at hmem
      rcases List.mem_append.mp hmem with hmem | hmem
      · rcases List.mem_append.mp hmem with hmem | hmem
        · cases hquiet _ hmem
        · simp [foundSteps] at hmem
      · exact ne_offerStep rfl p res (List.mem_singleton.mp hmem)
    obtain ⟨pre, mid, hlog⟩ := List.append_of_mem (mem_own.mp hlook)
    rw [hlog] at hno
    have hmid := no_register_between (hlog ▸ hfresh.left) hno
    refine ⟨pre, res, mid, hlog, hmid, fun respCh hget => ?_⟩
    rw [hlog] at hget
    have hfound := found_of_standing hmid hget
    have hres := (lookup_source hc happ h hlog).1.trans hfound
    refine ⟨hres, fun ch hch => ⟨p, ?_⟩⟩
    have hoffer : UDPClient.offerStep p res ∈ own i s.log := by simp [hown]
    rw [hres, hch] at hoffer
    exact mem_own.mp hoffer

end Races

/-! ## 4. Runs -/

/-- A request with ref `r1` and channel 7, whose response comes twice: both goroutines look
the ref up before either has deleted the entry. -/
def duplicateRun : List (Event Choice (UDPClient.Env (GoString × Nat))) :=
  requestRun 9 8 ++ .env (.datagram (ascii "\x7b\"m\":\x7b\"_ref\":\"r1\"\x7d\x7d")) ::
    List.replicate 9 (.act 2 {}) ++ [.act 1 {}]

/-- Two packets are offered on a channel that was passed to one `Send`. -/
theorem duplicate_offered_twice :
    ∃ s, (requestClient.machine (request requestClient)).run UDPClient.start duplicateRun = .ok s ∧
      s.log.countP (Entry.handsOff 7) = 1 ∧ s.log.countP (Entry.offersOn 7) = 2 := by
  have h : (((requestClient.machine (request requestClient)).run UDPClient.start
      duplicateRun).result?.map fun s =>
        (s.log.countP (Entry.handsOff 7), s.log.countP (Entry.offersOn 7))) = some (1, 2) := by
    decide +kernel
  obtain ⟨s, hs, hcounts⟩ := Option.map_eq_some_iff.mp h
  exact ⟨s, Outcome.eq_ok_of_result? hs, congrArg Prod.fst hcounts, congrArg Prod.snd hcounts⟩

/-- The run with one response is orderly. -/
theorem response_offered_once :
    ∃ s, (requestClient.machine (request requestClient)).run UDPClient.start (requestRun 9 10) =
        .ok s ∧ s.log.countP (Entry.offersOn 7) ≤ 1 := by
  have h : (((requestClient.machine (request requestClient)).run UDPClient.start
      (requestRun 9 10)).result?.map fun s => (decide (s.log.countP (Entry.handsOff 7) ≤ 1),
        decide (EachStep (fun log x => orderly log x = true) s.log))) = some (true, true) := by
    decide +kernel
  obtain ⟨s, hs, hboth⟩ := Option.map_eq_some_iff.mp h
  have hrun := Outcome.eq_ok_of_result? hs
  exact ⟨s, hrun, offered_at_most_once requestClient_quiet request_uses hrun
    (of_decide_eq_true (congrArg Prod.fst hboth)) (of_decide_eq_true (congrArg Prod.snd hboth))⟩

/-- A second request with ref `r1` and channel 8, up to its registration. -/
def overwriteRun : List (Event Choice (UDPClient.Env (GoString × Nat))) :=
  .env (.app (ref1, 7)) :: List.replicate 9 (.act 0 {}) ++ .env .wrote :: .env (.app (ref1, 8)) ::
    List.replicate 8 (.act 1 {})

/-- The response to the first request has been offered, and the second request registers
the ref before goroutine 1 deletes it. -/
def lateDeleteRun : List (Event Choice (UDPClient.Env (GoString × Nat))) :=
  requestRun 9 9 ++ .env (.app (ref1, 8)) :: List.replicate 9 (.act 2 {})

/-- The entry of the first request is overwritten, and the entry of the second one is
deleted by the goroutine that had found the first. -/
theorem registration_lost :
    (∃ s s', (requestClient.machine (request requestClient)).run UDPClient.start overwriteRun =
        .ok s ∧ (requestClient.machine (request requestClient)).step s (.act 1 {}) = .ok s' ∧
      s.state.requests.get? ref1 = some (some 7) ∧ s'.state.requests.get? ref1 = some (some 8)) ∧
    ∃ s s', (requestClient.machine (request requestClient)).run UDPClient.start lateDeleteRun =
        .ok s ∧ (requestClient.machine (request requestClient)).step s (.act 1 {}) = .ok s' ∧
      s.log.countP (Entry.offersOn 7) = 1 ∧
      s.state.requests.get? ref1 = some (some 8) ∧ s'.state.requests.get? ref1 = none := by
  have hover : (((requestClient.machine (request requestClient)).run UDPClient.start
      overwriteRun).result?.bind fun s =>
        ((requestClient.machine (request requestClient)).step s (.act 1 {})).result?.map fun s' =>
          (s.state.requests.get? ref1, s'.state.requests.get? ref1)) =
      some (some (some 7), some (some 8)) := by
    decide +kernel
  have hlate : (((requestClient.machine (request requestClient)).run UDPClient.start
      lateDeleteRun).result?.bind fun s =>
        ((requestClient.machine (request requestClient)).step s (.act 1 {})).result?.map fun s' =>
          (s.log.countP (Entry.offersOn 7), s.state.requests.get? ref1,
            s'.state.requests.get? ref1)) = some (1, some (some 8), none) := by
    decide +kernel
  obtain ⟨s, hs, hover⟩ := Option.bind_eq_some_iff.mp hover
  obtain ⟨s', hs', hover⟩ := Option.map_eq_some_iff.mp hover
  obtain ⟨u, hu, hlate⟩ := Option.bind_eq_some_iff.mp hlate
  obtain ⟨u', hu', hlate⟩ := Option.map_eq_some_iff.mp hlate
  simp only [Prod.mk.injEq] at hover hlate
  exact ⟨⟨s, s', Outcome.eq_ok_of_result? hs, Outcome.eq_ok_of_result? hs', hover⟩,
    u, u', Outcome.eq_ok_of_result? hu, Outcome.eq_ok_of_result? hu', hlate⟩

/-- With one request and one response the ref is fresh, and the deletion is that of the
entry which was found. -/
theorem response_registration_kept :
    ∃ s, (requestClient.machine (request requestClient)).run UDPClient.start
        (requestRun 9 9) = .ok s ∧
      ∃ pre res mid, s.log = pre ++ .act 1 (.lookup ref1) res :: mid ∧
        (∀ j respCh, Entry.act j (.register ref1 respCh) () ∉ mid) ∧
        ∀ respCh, s.state.requests.get? ref1 = some respCh → res = some respCh ∧
          ∀ ch, respCh = some ch → ∃ p, Entry.act 1 (.deliver ch p) () ∈ s.log := by
  have h : (((requestClient.machine (request requestClient)).run UDPClient.start
      (requestRun 9 9)).result?.bind fun s =>
        ((requestClient.machine (request requestClient)).step s (.act 1 {})).result?.map fun s' =>
          (decide (EachStep (fun log x => freshRef log x = true) s'.log),
            s'.log.getLast?.any (Entry.deletes 1 ref1))) = some (true, true) := by
    decide +kernel
  obtain ⟨s, hs, h⟩ := Option.bind_eq_some_iff.mp h
  obtain ⟨s', hs', h⟩ := Option.map_eq_some_iff.mp h
  obtain ⟨hfresh, hlast⟩ := Prod.mk.inj h
  have hrun := Outcome.eq_ok_of_result? hs
  have hstep := Outcome.eq_ok_of_result? hs'
  obtain ⟨x, hx⟩ := Machine.step_log hstep
  have hdel : x = .act 1 (.unregister ref1) () := by
    refine eq_of_deletes ?_
    simpa [hx] using hlast
  exact ⟨s, hrun, (registrations_kept requestClient_quiet request_uses hrun hstep
    (of_decide_eq_true hfresh)).2 1 ref1 (hdel ▸ hx)⟩

end Concord
