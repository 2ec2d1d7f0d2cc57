import Concord.UDPClient

/-!
# The request table of a client

`Send` hands its bytes to the write routine and registers the request afterwards,
while `processIncoming` looks a ref up, offers the packet and deletes the entry in
three separate steps.

1. `Turn`: where a goroutine stands between its lookup and its delete, and the rules
   for the operations of the table in terms of it.
2. `Tracked`: as long as a ref has not been looked up, its entry is what was
   registered, since only a goroutine that has looked a ref up deletes it.
3. `first_response_delivered_iff`: the first packet with the ref of a `Send` goes to
   the channel of that `Send` if and only if the request is registered by the time of
   the lookup. Between the hand-off and the registration it is not, and the packet goes
   to `Misc`.
-/

namespace Concord

open Go

/-! ## 1. Turns -/

/-- Where a goroutine stands: it has found `res` under `ref` and has to offer the
packet, or has offered it and has to delete the entry. `writer` is the write routine,
which offers its own error packets. -/
inductive Turn where
  | idle
  | found (ref : GoString) (res : Option (Option Nat))
  | offered (ref : GoString)
  | writer

/-- The ref a goroutine has looked up and not yet deleted. -/
def Turn.ref : Turn → Option GoString
  | .found ref _ | .offered ref => some ref
  | _ => none

def turnRules : Prog.Rules Op Op.Res Turn
  | .lookup ref => fun g Φ => g = .idle ∧ ∀ res : Option (Option Nat), Φ res (.found ref res)
  | .deliver ch _ => fun g Φ =>
    (∃ ref, g = .found ref (some (some ch)) ∧ Φ () (.offered ref)) ∨ g = .writer ∧ Φ () .writer
  | .misc _ => fun g Φ =>
    ∃ ref res, g = .found ref res ∧ (∀ ch, res ≠ some (some ch)) ∧ Φ () (.offered ref)
  | .unregister ref => fun g Φ => g = .offered ref ∧ Φ () .idle
  | _ => fun g Φ => g.ref = none ∧ ∀ r, Φ r g

theorem turnRules_mono : turnRules.Mono := by
  intro e g Φ Ψ hΦ
  cases e with
  | lookup ref => exact fun H => ⟨H.1, fun res => hΦ _ _ (H.2 res)⟩
  | deliver ch p =>
    rintro (⟨ref, hg, H⟩ | ⟨hg, H⟩)
    · exact .inl ⟨ref, hg, hΦ _ _ H⟩
    · exact .inr ⟨hg, hΦ _ _ H⟩
  | misc p =>
    rintro ⟨ref, res, hg, hres, H⟩
    exact ⟨ref, res, hg, hres, hΦ _ _ H⟩
  | unregister ref => exact fun H => ⟨H.1, hΦ _ _ H.2⟩
  | _ => exact fun H => ⟨H.1, fun r => hΦ _ _ (H.2 r)⟩

/-- An operation that is not one of `processIncoming` on the table and the channels. -/
def Op.aside : Op → Bool
  | .lookup _ | .deliver _ _ | .misc _ | .unregister _ => false
  | _ => true

theorem turn_wp_of_aside {α : Type} {x : Routine α} (hx : x.AllOps fun e => e.aside = true)
    {g : Turn} (hg : g.ref = none) : x.wp turnRules g fun _ g' => g' = g := by
  refine Prog.wp_of_allOps turnRules_mono (fun {e g'} he hg' => ?_) hx rfl
  subst hg'
  cases e with
  | lookup ref => cases he
  | deliver ch p => cases he
  | misc p => cases he
  | unregister ref => cases he
  | _ => exact ⟨hg, fun _ => rfl⟩

/-- What a goroutine that has found an entry does next. -/
theorem next_of_found {x : Routine Unit} {ref : GoString} {res : Option (Option Nat)}
    (h : x.wp turnRules (.found ref res) fun _ g => g.ref = none) :
    ∃ e k, x = .op e k ∧
      ∀ ch, ((∃ p, e = .deliver ch p) ↔ res = some (some ch)) ∧
        ((∃ p, e = .misc p) ↔ ∀ ch, res ≠ some (some ch)) := by
  cases x with
  | ret u => cases h
  | op e k =>
    refine ⟨e, k, rfl, fun ch => ?_⟩
    cases e with
    | deliver ch' p =>
      obtain ⟨_, hg, -⟩ | ⟨hg, -⟩ := h
      · cases hg
        simp [eq_comm]
      · cases hg
    | misc p =>
      obtain ⟨_, _, hg, hres, -⟩ := h
      cases hg
      simp [hres]
    | lookup ref => cases h.1
    | unregister ref => cases h.1
    | _ => cases h.1

/-! ## 2. The client's routines -/

namespace UDPClient

variable {c : UDPClient}

theorem answer_wp (ref : GoString) (pkt : Nat) :
    (answer ref pkt).wp turnRules .idle fun _ g => g.ref = none := by
  refine ⟨rfl, fun res => ?_⟩
  match res with
  | none => exact ⟨ref, none, rfl, nofun, rfl, rfl⟩
  | some none => exact ⟨ref, some none, rfl, nofun, rfl, rfl⟩
  | some (some ch) => exact .inl ⟨ref, rfl, rfl, rfl⟩

theorem newPkt_aside (ref dest : GoString) :
    (Routine.newPkt ref dest).AllOps fun e => e.aside = true :=
  Routine.newPkt_allOps (P := fun e => e.aside = true) rfl fun _ _ _ => rfl

theorem newErrPkt_aside (ref dest msg : GoString) :
    (Routine.newErrPkt ref dest msg).AllOps fun e => e.aside = true :=
  Routine.newErrPkt_allOps (P := fun e => e.aside = true) rfl fun _ _ _ => rfl

theorem processIncoming_turn
    (hin : ∀ t ∈ c.data pipelineIn, ∀ ctx data, (t ctx data).AllOps fun e => e.aside = true)
    (data : Bytes) :
    (c.processIncoming data).wp turnRules .idle fun _ g => g.ref = none := by
  simp only [processIncoming, processData, Prog.wp_bind]
  refine Prog.wp_mono turnRules_mono (fun r g hg => ?_)
    (turn_wp_of_aside (processTransforms_allOps hin _ data) rfl)
  obtain ⟨ctx, data, err⟩ := r
  subst hg
  cases err with
  | some err => rfl
  | none =>
    simp only [Prog.wp_bind]
    refine Prog.wp_mono turnRules_mono (fun pkt g hg => ?_)
      (turn_wp_of_aside (newPkt_aside [] []) rfl)
    subst hg
    refine ⟨rfl, fun uerr => ?_⟩
    cases uerr with
    | some _ => rfl
    | none => exact ⟨rfl, fun ref => answer_wp ref pkt⟩

theorem writeError_turn (ch : Nat) (err : GoString) :
    (writeError ch err).wp turnRules .writer fun _ g => g.ref = none := by
  simp only [writeError, Prog.wp_bind]
  refine Prog.wp_mono turnRules_mono (fun p g hg => ?_)
    (turn_wp_of_aside (newErrPkt_aside [] [] _) rfl)
  subst hg
  exact .inr ⟨rfl, rfl, fun _ => rfl⟩

/-- `Send` leaves the table of another ref and the channels alone. -/
theorem send_aside
    (hout : ∀ t ∈ c.data pipelineOut, ∀ ctx data, (t ctx data).AllOps fun e => e.aside = true)
    (pkt : Nat) (respCh : Option Nat) :
    (c.send pkt respCh).AllOps fun e => e.aside = true := by
  refine Prog.allOps_bind ?_ fun ref => Prog.allOps_op rfl fun bin => ?_
  · refine Prog.allOps_op rfl fun ref => Prog.allOps_ite (fun _ => ?_) fun _ => trivial
    exact Prog.allOps_op rfl fun ref => Prog.allOps_bind
      (Routine.call_allOps (P := fun e => e.aside = true) rfl) fun _ => trivial
  · refine Prog.allOps_bind (processTransforms_allOps hout _ bin) fun r => ?_
    obtain ⟨ctx, bin, err⟩ := r
    cases err with
    | some err => trivial
    | none =>
      exact Prog.allOps_ite (fun _ => trivial) fun _ =>
        Prog.allOps_op rfl fun _ => Prog.allOps_op rfl fun _ => trivial

end UDPClient

/-! ## 3. Every run -/

section Runs

variable {α : Type} {s s' : Endpoint} {log : List (Entry Op Op.Res (UDPClient.Env α))}
  {gs : List Turn}

/-- The operation changes the table. -/
def Op.onRequests : Op → Bool
  | .register _ _ | .unregister _ => true
  | _ => false

theorem handle_requests {c : Choice} {e : Op} {r : e.Res} (he : e.onRequests = false)
    (hh : s.handle c e = .ok (r, s')) : s'.requests = s.requests := by
  cases e with
  | register ref x => cases he
  | unregister ref => cases he
  | writeStream data ch =>
    simp only [Endpoint.handle] at hh
    split at hh
    · cases hh
    · cases hh
      rfl
  | writeDone =>
    cases hh
    rfl
  | deliver ch p =>
    cases hh
    rfl
  | receive ch =>
    simp only [Endpoint.handle] at hh
    split at hh
    · cases hh
    · cases hh
      rfl
  | _ => exact ((Endpoint.handle_frame hh).2.2.2 rfl).2.1

/-- The table as far as the log tells. -/
structure Tracked (s : Endpoint) (log : List (Entry Op Op.Res (UDPClient.Env α))) (gs : List Turn) :
    Prop where
  turns : ∀ (i : Nat) (g : Turn) (ref : GoString), gs[i]? = some g → g.ref = some ref →
    ∃ j res, Entry.act j (.lookup ref) res ∈ log
  registered : ∀ ref x, s.requests.get? ref = some x →
    ∃ i, Entry.act i (.register ref x) () ∈ log
  kept : ∀ ref, (∀ j res, Entry.act j (.lookup ref) res ∉ log) →
    ∀ i x, Entry.act i (.register ref x) () ∈ log → ∃ y, s.requests.get? ref = some y

/-- An operation that leaves the table alone and is no registration. -/
theorem Tracked.act_quiet (b : Tracked s log gs) {i : Nat} {g' : Turn} {e : Op} {r : e.Res}
    (hreq : s'.requests = s.requests) (hne : ∀ ref x, e ≠ .register ref x)
    (hg : ∀ ref, g'.ref = some ref →
      ∃ j res, Entry.act j (.lookup ref) res ∈ log ++ [Entry.act i e r]) :
    Tracked s' (log ++ [.act i e r]) (gs.set i g') where
  turns j g ref hj href := by
    rcases mem_set_cases (List.mem_of_getElem? hj) with rfl | ⟨l, -, hl⟩
    · exact hg ref href
    · obtain ⟨k, res, hk⟩ := b.turns l g ref hl href
      exact ⟨k, res, List.mem_append_left _ hk⟩
  registered ref x hx := by
    obtain ⟨l, hl⟩ := b.registered ref x (hreq ▸ hx)
    exact ⟨l, List.mem_append_left _ hl⟩
  kept ref hno l x hl := by
    rw [hreq]
    refine b.kept ref (fun j res hj => hno j res (List.mem_append_left _ hj)) l x ?_
    rcases List.mem_append.mp hl with hl | hl
    · exact hl
    · cases List.mem_singleton.mp hl
      exact absurd rfl (hne ref x)

theorem Tracked.act_register (b : Tracked s log gs) {i : Nat} {g : Turn} (hi : gs[i]? = some g)
    (ref : GoString) (x : Option Nat) :
    Tracked { s with requests := s.requests.set ref x } (log ++ [.act i (.register ref x) ()])
      (gs.set i g) where
  turns j g' ref' hj href := by
    rw [set_self hi] at hj
    obtain ⟨k, res, hk⟩ := b.turns j g' ref' hj href
    exact ⟨k, res, List.mem_append_left _ hk⟩
  registered ref' y hy := by
    simp only [GoMap.get?_set] at hy
    split at hy
    · next h =>
      cases hy
      exact ⟨i, h ▸ List.mem_append_right _ (List.mem_singleton_self _)⟩
    · obtain ⟨l, hl⟩ := b.registered ref' y hy
      exact ⟨l, List.mem_append_left _ hl⟩
  kept ref' hno l y hl := by
    simp only [GoMap.get?_set]
    split
    · exact ⟨x, rfl⟩
    · next hne =>
      refine b.kept ref' (fun j res hj => hno j res (List.mem_append_left _ hj)) l y ?_
      rcases List.mem_append.mp hl with hl | hl
      · exact hl
      · cases List.mem_singleton.mp hl
        exact absurd rfl hne

/-- A goroutine deletes only what it has looked up. -/
theorem Tracked.act_unregister (b : Tracked s log gs) {i : Nat} {ref : GoString}
    (hi : gs[i]? = some (.offered ref)) :
    Tracked { s with requests := s.requests.delete ref } (log ++ [.act i (.unregister ref) ()])
      (gs.set i .idle) where
  turns j g ref' hj href := by
    rcases mem_set_cases (List.mem_of_getElem? hj) with rfl | ⟨l, -, hl⟩
    · cases href
    · obtain ⟨k, res, hk⟩ := b.turns l g ref' hl href
      exact ⟨k, res, List.mem_append_left _ hk⟩
  registered ref' y hy := by
    simp only [GoMap.get?_delete] at hy
    split at hy
    · cases hy
    · obtain ⟨l, hl⟩ := b.registered ref' y hy
      exact ⟨l, List.mem_append_left _ hl⟩
  kept ref' hno l y hl := by
    obtain ⟨k, res, hk⟩ := b.turns i _ ref hi rfl
    have hne : ref' ≠ ref := by
      rintro rfl
      exact hno k res (List.mem_append_left _ hk)
    simp only [GoMap.get?_delete, if_neg hne]
    refine b.kept ref' (fun j res hj => hno j res (List.mem_append_left _ hj)) l y ?_
    rcases List.mem_append.mp hl with hl | hl
    · exact hl
    · cases List.mem_singleton.mp hl

theorem Tracked.act (b : Tracked s log gs) {i : Nat} {g : Turn} {c : Choice} {e : Op} {r : e.Res}
    {Φ : e.Res → Turn → Prop} (hi : gs[i]? = some g) (H : turnRules e g Φ)
    (hh : s.handle c e = .ok (r, s')) :
    ∃ g', Φ r g' ∧ Tracked s' (log ++ [.act i e r]) (gs.set i g') := by
  -- a goroutine in the middle of its turn has looked the ref up before
  have hturn : ∀ ref, g.ref = some ref →
      ∃ j res, Entry.act j (.lookup ref) res ∈ log ++ [Entry.act i e r] := fun ref href => by
    obtain ⟨j, res, hj⟩ := b.turns i g ref hi href
    exact ⟨j, res, List.mem_append_left _ hj⟩
  cases e with
  | lookup ref =>
    refine ⟨_, H.2 r, b.act_quiet (handle_requests rfl hh) nofun fun ref' href => ?_⟩
    cases href
    exact ⟨i, r, List.mem_append_right _ (List.mem_singleton_self _)⟩
  | deliver ch p =>
    obtain ⟨ref, rfl, H⟩ | ⟨rfl, H⟩ := H
    · exact ⟨_, H, b.act_quiet (handle_requests rfl hh) nofun fun ref' href => hturn ref' href⟩
    · exact ⟨_, H, b.act_quiet (handle_requests rfl hh) nofun fun ref' href => hturn ref' href⟩
  | misc p =>
    obtain ⟨ref, res, rfl, -, H⟩ := H
    exact ⟨_, H, b.act_quiet (handle_requests rfl hh) nofun fun ref' href => hturn ref' href⟩
  | unregister ref =>
    cases hh
    obtain ⟨rfl, H⟩ := H
    exact ⟨_, H, b.act_unregister hi⟩
  | register ref x =>
    cases hh
    exact ⟨_, H.2 (), b.act_register hi ref x⟩
  | _ => exact ⟨g, H.2 r, b.act_quiet (handle_requests rfl hh) nofun hturn⟩

/-- An environment step, with the goroutine it starts. -/
theorem Tracked.env (b : Tracked s log gs) {ev : UDPClient.Env α} {new : List Turn}
    (hreq : s'.requests = s.requests) (hnew : ∀ g ∈ new, g.ref = none) :
    Tracked s' (log ++ [.env ev]) (gs ++ new) where
  turns j g ref hj href := by
    have hmem := List.mem_append.mp (List.mem_of_getElem? hj)
    rcases hmem with hmem | hmem
    · obtain ⟨l, hl⟩ := List.mem_iff_getElem?.mp hmem
      obtain ⟨k, res, hk⟩ := b.turns l g ref hl href
      exact ⟨k, res, List.mem_append_left _ hk⟩
    · rw [hnew g hmem] at href
      cases href
  registered ref x hx := by
    obtain ⟨l, hl⟩ := b.registered ref x (hreq ▸ hx)
    exact ⟨l, List.mem_append_left _ hl⟩
  kept ref hno l x hl := by
    rw [hreq]
    exact b.kept ref (fun j res hj => hno j res (List.mem_append_left _ hj)) l x (by simpa using hl)

variable {c : UDPClient} {app : α → Routine Unit}
  (hin : ∀ t ∈ c.data pipelineIn, ∀ ctx data, (t ctx data).AllOps fun e => e.aside = true)
  (happ : ∀ call, (app call).AllOps fun e => e.aside = true)

def turnLogic : Logic (c.machine app) Turn where
  rules := turnRules
  mono := turnRules_mono
  inv := Tracked
  final g := g.ref = none
  allowed _ _ := True
  mayCrash := True
  act := by
    intro s i c e f gs g Φ _ _ hb hi hΦ
    split
    · next r st hh => exact hb.act hi hΦ hh
    · trivial
    · trivial
  env := by
    intro s ev gs st _ hb he
    rw [← List.append_nil gs]
    rcases UDPClient.env_quiet he with rfl | ⟨n, rfl, rfl⟩
    · exact hb.env rfl nofun
    · exact hb.env rfl nofun
  spawn := by
    intro s ev gs st t _ _ hb he
    rcases UDPClient.env_spawn he with ⟨call, rfl, rfl, rfl⟩ | ⟨data, rfl, rfl, rfl⟩ |
      ⟨err, w, ch, rfl, -, -, rfl, rfl⟩
    · refine ⟨.idle, ?_, hb.env rfl (by simp [Turn.ref])⟩
      refine Prog.wp_mono turnRules_mono (fun _ g hg => ?_) (turn_wp_of_aside (happ call) rfl)
      rw [hg]
      rfl
    · exact ⟨.idle, UDPClient.processIncoming_turn hin data, hb.env rfl (by simp [Turn.ref])⟩
    · exact ⟨.writer, UDPClient.writeError_turn ch err, hb.env rfl (by simp [Turn.ref])⟩

include hin happ in
/-- Goroutine `j` is about to look up `r`, the first to do so, and the one `Send` with
that ref is that of goroutine `i` with response channel `ch`. The packet is offered on
`ch` next if `i` has registered the request, and on `Misc` if it has not. -/
theorem first_response_delivered_iff {evs : List (Event Choice (UDPClient.Env α))}
    {s : Sys Op Op.Res Endpoint (UDPClient.Env α)} {i j ch : Nat} {r : GoString}
    {k : Option (Option Nat) → Routine Unit}
    (h : (c.machine app).run UDPClient.start evs = .ok s)
    (hdistinct : ∀ i' x, Entry.act i' (.register r x) () ∈ s.log → i' = i ∧ x = some ch)
    (hfirst : ∀ j res, Entry.act j (.lookup r) res ∉ s.log)
    (hj : s.threads[j]? = some (.op (.lookup r) k)) (choice : Choice) :
    ∃ s' e f, (c.machine app).step s (.act j choice) = .ok s' ∧
      s'.threads[j]? = some (.op e f) ∧
      ((∃ p, e = .deliver ch p) ↔ Entry.act i (.register r (some ch)) () ∈ s.log) ∧
      ((∃ p, e = .misc p) ↔ Entry.act i (.register r (some ch)) () ∉ s.log) := by
  have hinit : (turnLogic hin happ).Holds UDPClient.start := by
    refine ⟨[], rfl, ⟨nofun, fun ref x hx => ?_, fun _ _ _ _ h => (nomatch h)⟩, ?_⟩
    · simp [UDPClient.start, Endpoint.init] at hx
    · simp [UDPClient.start]
  obtain ⟨gs, hlen, hb, hwp⟩ := (turnLogic hin happ).run_holds hinit
    (Machine.eachAllowed_of_forall (fun _ _ => trivial) _ _) h
  have hb : Tracked s.state s.log gs := hb
  obtain ⟨g, hg⟩ := Logic.exists_ghost hlen hj
  obtain ⟨-, hfound⟩ := hwp j _ g hj hg
  -- what the lookup finds is the registration, if there is one
  have hres : s.state.requests.get? r = some (some ch) ↔
      Entry.act i (.register r (some ch)) () ∈ s.log := by
    constructor
    · intro hres
      obtain ⟨l, hl⟩ := hb.registered r _ hres
      exact (hdistinct l _ hl).1 ▸ hl
    · intro hreg
      obtain ⟨y, hy⟩ := hb.kept r hfirst i _ hreg
      obtain ⟨l, hl⟩ := hb.registered r y hy
      rw [hy, (hdistinct l y hl).2]
  have hnone : (∀ ch', s.state.requests.get? r ≠ some (some ch')) ↔
      ¬ s.state.requests.get? r = some (some ch) := by
    refine ⟨fun hn => hn ch, fun hn ch' hch => ?_⟩
    obtain ⟨l, hl⟩ := hb.registered r _ hch
    exact hn (hch.trans (congrArg some (hdistinct l _ hl).2))
  obtain ⟨e, f, hk, hnext⟩ := next_of_found (hfound (s.state.requests.get? r))
  refine ⟨⟨s.state, s.threads.set j (k (s.state.requests.get? r)),
    s.log ++ [.act j (.lookup r) (s.state.requests.get? r)]⟩, e, f, ?_, ?_, ?_, ?_⟩
  · simp only [Machine.step, hj]
    rfl
  · rw [List.getElem?_set_self (List.getElem?_eq_some_iff.mp hj).1, hk]
  · exact (hnext ch).1.trans hres
  · exact (hnext ch).2.trans (hnone.trans (not_congr hres))

end Runs

/-! ## 4. A run -/

/-- An application goroutine: a new packet to the server, sent with its own ref and
response channel. -/
def request (c : UDPClient) (call : GoString × Nat) : Routine Unit := do
  let p ← Routine.newPkt call.1 c.addr
  let _ ← c.send p (some call.2)

theorem request_aside {c : UDPClient}
    (hout : ∀ t ∈ c.data pipelineOut, ∀ ctx data, (t ctx data).AllOps fun e => e.aside = true)
    (call : GoString × Nat) : (request c call).AllOps fun e => e.aside = true :=
  Prog.allOps_bind (UDPClient.newPkt_aside _ _) fun p =>
    Prog.allOps_bind (UDPClient.send_aside hout p _) fun _ => trivial

/-- What a log shows of one request. -/
inductive TableEvent where
  | handOff (tid : Nat) (respCh : Option Nat)
  | wrote
  | register (tid : Nat) (ref : GoString) (respCh : Option Nat)
  | lookup (tid : Nat) (ref : GoString)
  | deliver (tid : Nat) (respCh : Nat)
  | misc (tid : Nat)
  deriving DecidableEq

def tableEvent {α : Type} : Entry Op Op.Res (UDPClient.Env α) → Option TableEvent
  | .act i (.writeStream _ ch) _ => some (.handOff i ch)
  | .act i (.register ref ch) _ => some (.register i ref ch)
  | .act i (.lookup ref) _ => some (.lookup i ref)
  | .act i (.deliver ch _) _ => some (.deliver i ch)
  | .act i (.misc _) _ => some (.misc i)
  | .env .wrote => some .wrote
  | _ => none

theorem eq_of_tableEvent_register {α : Type} {x : Entry Op Op.Res (UDPClient.Env α)} {i : Nat}
    {ref : GoString} {ch : Option Nat} (h : tableEvent x = some (.register i ref ch)) :
    x = .act i (.register ref ch) () := by
  unfold tableEvent at h
  split at h <;> cases h
  rfl

/-- The ref a goroutine is about to look up. -/
def nextLookup {α : Type} (s : Sys Op Op.Res Endpoint (UDPClient.Env α)) (j : Nat) :
    Option GoString :=
  match s.threads[j]? with
  | some (.op (.lookup ref) _) => some ref
  | _ => none

theorem exists_of_nextLookup {α : Type} {s : Sys Op Op.Res Endpoint (UDPClient.Env α)} {j : Nat}
    {ref : GoString} (h : nextLookup s j = some ref) :
    ∃ k, s.threads[j]? = some (.op (.lookup ref) k) := by
  unfold nextLookup at h
  split at h
  · next r k hj =>
    cases h
    exact ⟨k, hj⟩
  · cases h

def requestClient : UDPClient := UDPClient.new (ascii "10.0.0.9:5000")

def ref1 : GoString := ascii "r1"

/-- Goroutine 0 sends a request with ref `r1` and channel 7 and takes `n` steps, the
write succeeds, the response comes in, and goroutine 1 takes `m` steps with it. -/
def requestRun (n m : Nat) : List (Event Choice (UDPClient.Env (GoString × Nat))) :=
  .env (.app (ref1, 7)) :: List.replicate n (.act 0 {}) ++
    .env .wrote :: .env (.datagram (ascii "\x7b\"m\":\x7b\"_ref\":\"r1\"\x7d\x7d")) ::
    List.replicate m (.act 1 {})

/-- The response is looked up between the hand-off and the registration, and goes to
`Misc`. -/
theorem early_response_to_misc :
    ∃ s, (requestClient.machine (request requestClient)).run UDPClient.start
        (requestRun 8 9 ++ [.act 0 {}]) = .ok s ∧
      s.log.filterMap tableEvent = [.handOff 0 (some 7), .wrote, .lookup 1 ref1, .misc 1,
        .register 0 ref1 (some 7)] := by
  have h : (((requestClient.machine (request requestClient)).run UDPClient.start
      (requestRun 8 9 ++ [.act 0 {}])).result?.map fun s => s.log.filterMap tableEvent) =
      some [.handOff 0 (some 7), .wrote, .lookup 1 ref1, .misc 1, .register 0 ref1 (some 7)] := by
    decide +kernel
  obtain ⟨s, hs, hlog⟩ := Option.map_eq_some_iff.mp h
  exact ⟨s, Outcome.eq_ok_of_result? hs, hlog⟩

/-- With one more step of the sender before, the response is offered on its channel. -/
theorem registered_response_delivered :
    ∃ s s' p f, (requestClient.machine (request requestClient)).run UDPClient.start
        (requestRun 9 7) = .ok s ∧
      (requestClient.machine (request requestClient)).step s (.act 1 {}) = .ok s' ∧
      s'.threads[1]? = some (.op (.deliver 7 p) f) := by
  have h : (((requestClient.machine (request requestClient)).run UDPClient.start
      (requestRun 9 7)).result?.map fun s => (s.log.filterMap tableEvent, nextLookup s 1)) =
      some ([.handOff 0 (some 7), .register 0 ref1 (some 7), .wrote], some ref1) := by
    decide +kernel
  obtain ⟨s, hs, hobs⟩ := Option.map_eq_some_iff.mp h
  obtain ⟨hlog, hnext⟩ := Prod.mk.inj hobs
  obtain ⟨k, hj⟩ := exists_of_nextLookup hnext
  have hmem : ∀ {x y}, x ∈ s.log → tableEvent x = some y →
      y ∈ [.handOff 0 (some 7), .register 0 ref1 (some 7), .wrote] := fun hx hy =>
    hlog ▸ List.mem_filterMap.mpr ⟨_, hx, hy⟩
  have hreg : Entry.act 0 (.register ref1 (some 7)) () ∈ s.log := by
    obtain ⟨x, hx, hy⟩ := List.mem_filterMap.mp
      (hlog ▸ by simp : TableEvent.register 0 ref1 (some 7) ∈ s.log.filterMap tableEvent)
    exact eq_of_tableEvent_register hy ▸ hx
  obtain ⟨s', e, f, hstep, ht, hdel, -⟩ := first_response_delivered_iff (i := 0) (by
      simp [requestClient, UDPClient.new]) (request_aside (by simp [requestClient, UDPClient.new]))
    (Outcome.eq_ok_of_result? hs)
    (fun i' x hx => by simpa using hmem hx rfl)
    (fun j res hx => by simpa using hmem hx rfl) hj {}
  obtain ⟨p, rfl⟩ := hdel.mpr hreg
  exact ⟨s, s', p, f, Outcome.eq_ok_of_result? hs, hstep, ht⟩

end Concord
