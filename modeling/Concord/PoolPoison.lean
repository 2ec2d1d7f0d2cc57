import Concord.UDPServer

/-!
# Packets without a metadata map

`Add` on a nil map panics, and `NewPkt` adds the ref to whatever packet object
the pool hands out. A decode can leave a packet object with a nil map behind
`Meta()`: `null` for the metadata makes the wire struct's map nil and a decode
without a type error rebinds `Meta()` to it. The packet goes back to the pool,
and an unrelated request gets it.

`no_panic_of_not_poisoned`: over every run of the server (any datagrams, any
interleaving, any choice of pooled packets, callbacks that do not panic by
themselves) in which no decode does that, no operation panics.
-/

namespace Concord

open Go JSONPkt

/-- Decoding `bin` leaves `Meta()` of the packet without a map. -/
def JSONPkt.poisonedBy (p : JSONPkt) (bin : Bytes) : Bool :=
  match Json.parse bin with
  | none => false
  | some doc => !typeError doc && ((metaPatch doc).apply p.wireMap).isNone

theorem wireMap_eq_none {p : JSONPkt} : p.wireMap = none ↔ p.wireMeta = none := by
  constructor
  · intro h
    cases hw : p.wireMeta with
    | none => rfl
    | some r =>
      obtain ⟨m, hm⟩ := maps_wireMeta hw
      rw [wireMap_some hw, hm] at h
      cases h
  · exact wireMap_none

/-- The decode that leaves a packet without a map, and no other. -/
theorem unmarshal_kvMeta_eq_none {p : JSONPkt} (hp : p.kvMeta ≠ none) (bin : Bytes) :
    (p.unmarshal bin).1.kvMeta = none ↔ p.poisonedBy bin = true := by
  unfold poisonedBy
  rcases unmarshal_cases p bin with ⟨hn, h⟩ | ⟨doc, hdoc, ⟨hte, h⟩ | ⟨hte, b, h⟩⟩
  · simp [h, hn, hp]
  · rw [h, (refAfter_jsonUnmarshal p doc).kvMeta]
    simp [hdoc, hte, hp]
  · have hkv : (p.unmarshal bin).1.kvMeta = (p.jsonUnmarshal doc).1.wireMeta := by rw [h]; rfl
    rw [hkv, ← wireMap_eq_none, wireMap_jsonUnmarshal]
    simp [hdoc, hte]

/-- Only an `Add` to a nil map panics, and only a poisoning decode loses a map. -/
theorem kvMeta_ne_none_op {p : JSONPkt} (hp : p.kvMeta ≠ none) (op : PktOp)
    (hop : ∀ bin, op = .unmarshal bin → p.poisonedBy bin = false) :
    ∃ q, op.apply p = some q ∧ q.kvMeta ≠ none := by
  cases op with
  | metaAdd k v =>
    obtain ⟨r, hr⟩ := Option.ne_none_iff_exists'.mp hp
    refine ⟨p.modifyMap r fun m => m.set k v, ?_, hp⟩
    rw [PktOp.apply, metaAdd, hr, Option.map_some]
  | metaClear =>
    refine ⟨_, rfl, ?_⟩
    unfold metaClear
    split <;> exact hp
  | setDest d => exact ⟨_, rfl, hp⟩
  | write d => exact ⟨_, rfl, hp⟩
  | clear => exact ⟨_, rfl, hp⟩
  | close => exact ⟨_, rfl, hp⟩
  | unmarshal bin =>
    refine ⟨_, rfl, fun h => ?_⟩
    rw [unmarshal_kvMeta_eq_none hp, hop bin rfl] at h
    cases h

/-! ## Runs -/

/-- The step is a decode that leaves a packet without a map. -/
def poisoningStep (s : Sys Op Op.Res Endpoint UDPServer.Env) :
    Event Choice UDPServer.Env → Bool
  | .act i _ =>
    match s.threads[i]? with
    | some (.op (.call p (.unmarshal bin)) _) =>
      match s.state.pkts.mem[p]? with
      | some pkt => pkt.poisonedBy bin
      | none => false
    | _ => false
  | .env _ => false

theorem poisoningStep_call {s : Sys Op Op.Res Endpoint UDPServer.Env} {i p : Nat} {c : Choice}
    {op : PktOp} {k : Op.Res (.call p op) → Routine Unit} {pkt : JSONPkt}
    (ht : s.threads[i]? = some (.op (.call p op) k)) (ha : poisoningStep s (.act i c) = false)
    (hp : s.state.pkts.mem[p]? = some pkt) :
    ∀ bin, op = .unmarshal bin → pkt.poisonedBy bin = false := by
  rintro bin rfl
  simpa only [poisoningStep, ht, hp] using ha

/-- Every packet object has a map behind `Meta()`. -/
def AllMapped (s : Endpoint) : Prop := ∀ p ∈ s.pkts.mem, p.kvMeta ≠ none

theorem allMapped_new : JSONPkt.new.kvMeta ≠ none := by simp [JSONPkt.new]

/-- One operation other than a panic or a poisoning decode. -/
theorem handle_allMapped {s : Endpoint} (h : AllMapped s) {c : Choice} {e : Op}
    (hdec : ∀ p bin pkt, e = .call p (.unmarshal bin) → s.pkts.mem[p]? = some pkt →
      pkt.poisonedBy bin = false) {r : e.Res} {s' : Endpoint} (hs : s.handle c e = .ok (r, s')) :
    AllMapped s' := by
  cases e with
  | poolGet =>
    cases hs
    exact PktPool.all_get allMapped_new h c.pick
  | poolPut p =>
    cases hs
    intro q hq
    rw [PktPool.put_mem] at hq
    exact h q hq
  | call p op =>
    obtain ⟨pkt, q, hp, hq, -, rfl⟩ := Endpoint.handle_call_ok hs
    obtain ⟨q', hq', hkv⟩ := kvMeta_ne_none_op (h pkt (List.mem_of_getElem? hp)) op
      fun bin hbin => hdec p bin pkt (by rw [hbin]) hp
    obtain rfl : q' = q := Option.some.inj (hq'.symm.trans hq)
    intro x hx
    rcases List.mem_or_eq_of_mem_set hx with hx | rfl
    · exact h x hx
    · exact hkv
  | _ =>
    rw [AllMapped, (Endpoint.handle_frame hs).1 rfl]
    exact h

theorem handle_no_crash {s : Endpoint} (h : AllMapped s) {c : Choice} {e : Op} (he : e ≠ .panic)
    (hdec : ∀ p bin pkt, e = .call p (.unmarshal bin) → s.pkts.mem[p]? = some pkt →
      pkt.poisonedBy bin = false) : s.handle c e ≠ .crash := by
  intro hc
  rcases Endpoint.handle_crash hc with rfl | ⟨p, op, pkt, rfl, hp, hop⟩
  · exact he rfl
  · obtain ⟨q, hq, -⟩ := kvMeta_ne_none_op (h pkt (List.mem_of_getElem? hp)) op
      fun bin hbin => hdec p bin pkt (by rw [hbin]) hp
    rw [hop] at hq
    cases hq

/-- The rules for programs that do not panic by themselves. -/
def noPanicRules : Prog.Rules Op Op.Res Unit := Prog.Rules.free.only (· ≠ .panic)

theorem noPanicRules_mono : noPanicRules.Mono := Prog.Rules.only_mono Prog.Rules.free_mono _

theorem wp_noPanic {t : Routine Unit} (h : t.AllOps (· ≠ .panic)) :
    t.wp noPanicRules () fun _ _ => True :=
  Prog.wp_only Prog.Rules.free_mono h (Prog.wp_free fun _ => trivial)

theorem ownOps_ne_panic : UDPServer.OwnOps (· ≠ .panic) where
  get := by simp
  put := by simp
  call := by simp
  read := by simp
  send := by simp

section Server

variable {svr : UDPServer}
  (hdata : ∀ name, ∀ t ∈ svr.data name, ∀ ctx data, (t ctx data).AllOps (· ≠ .panic))
  (hq : ∀ name cbs, svr.queues name = some cbs → ∀ cb ∈ cbs, ∀ ctx pw,
    (cb ctx pw).AllOps (· ≠ .panic))

include hdata hq

/-- The proof system: packet objects keep their maps, and nothing panics. -/
def mapLogic : Logic svr.machine Unit where
  rules := noPanicRules
  mono := noPanicRules_mono
  inv s _ _ := AllMapped s
  final _ := True
  allowed s ev := poisoningStep s ev = false
  mayCrash := False
  act := by
    intro s i c e k gs g Φ ht ha hinv hg hΦ
    have hdec : ∀ p bin pkt, e = .call p (.unmarshal bin) → s.state.pkts.mem[p]? = some pkt →
        pkt.poisonedBy bin = false := by
      rintro p bin pkt rfl hp
      exact poisoningStep_call ht ha hp bin rfl
    split
    · next r st hh => exact ⟨(), hΦ.2 r, handle_allMapped hinv hdec hh⟩
    · trivial
    · next hh => exact handle_no_crash hinv hΦ.1 hdec hh
  env := by
    intro s a gs st _ hinv he
    obtain ⟨n, rfl, rfl⟩ := UDPServer.env_quiet he
    exact hinv
  spawn := by
    intro s a gs st t _ _ hinv he
    rcases UDPServer.env_spawn he with ⟨d, sender, rfl, rfl, rfl⟩ | ⟨p, rfl, -, rfl, rfl⟩
    · exact ⟨(), wp_noPanic (UDPServer.processIncoming_allOps ownOps_ne_panic (hdata _) hq d sender),
        hinv⟩
    · exact ⟨(), wp_noPanic
        (UDPServer.processOutgoing_allOps ownOps_ne_panic.edits (by simp) (hdata _) p),
        hinv⟩

/-- In every run without a poisoning decode every packet object keeps a map behind
`Meta()`, and no operation panics. -/
theorem no_panic_of_not_poisoned {evs : List (Event Choice UDPServer.Env)}
    (h : svr.machine.EachAllowed (fun s ev => poisoningStep s ev = false) UDPServer.start evs) :
    svr.machine.run UDPServer.start evs ≠ .crash ∧
    ∀ s, svr.machine.run UDPServer.start evs = .ok s → AllMapped s.state := by
  have hinit : (mapLogic hdata hq).Holds UDPServer.start :=
    ⟨[], rfl, by simp [mapLogic, AllMapped, UDPServer.start, Endpoint.init, PktPool.empty], by
      simp [UDPServer.start]⟩
  refine ⟨fun hc => (mapLogic hdata hq).run_crash hinit h hc, fun s hs => ?_⟩
  obtain ⟨gs, _, hinv, _⟩ := (mapLogic hdata hq).run_holds hinit h hs
  exact hinv

end Server

/-- A server without transforms and callbacks. -/
def bareServer : UDPServer := ⟨fun _ => [], fun _ => none, fun s => some s⟩

/-- The datagram `data` is read and the goroutine for it takes `n` steps, every
pooled packet being taken from the front of the pool. -/
def serveSteps (tid : Nat) (data : Bytes) (n : Nat) : List (Event Choice UDPServer.Env) :=
  .env (.datagram data (ascii "10.0.0.1:4000")) :: List.replicate n (.act tid {})

/-- Serving one datagram takes this many steps here, the packet going back to the
pool in the last one. -/
def oneRequest : Nat := 23

/-- A datagram without metadata is served, and the next one gets its packet:
`NewPkt` panics. -/
theorem null_meta_panics :
    bareServer.machine.run UDPServer.start
      (serveSteps 0 (ascii "\x7b\"m\":null\x7d") oneRequest ++
        serveSteps 1 (ascii "\x7b\x7d") 5) = .crash :=
  Outcome.eq_crash_of_isCrash (by decide +kernel)

/-- The same with a document that keeps its metadata. -/
theorem empty_meta_no_panic :
    bareServer.machine.run UDPServer.start
      (serveSteps 0 (ascii "\x7b\"m\":\x7b\x7d\x7d") oneRequest ++
        serveSteps 1 (ascii "\x7b\x7d") 5) ≠ .crash :=
  (@no_panic_of_not_poisoned bareServer (by simp [bareServer]) (by simp [bareServer]) _
    (by decide +kernel)).1

end Concord
