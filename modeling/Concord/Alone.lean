import Concord.Go.Completes
import Concord.KeyChoice
import Concord.PacketRoundTrip

/-!
# Goroutines alone

What the calls on packets and on the creator do in a goroutine that nothing disturbs:
the packets the creator hands out have one metadata map and are nobody else's, and what is
put on `sendStream` is taken at once (`Attends`). The contents of a packet object are given as a
record (`PktView`), a packet that has been made is apart from the others (`Made`).
-/

namespace Concord

open Go

/-! ## 1. Handlers -/

/-- Both references of the packet name one map. -/
def JSONPkt.whole (c : JSONPkt) : Bool := c.kvMeta.isSome && decide (c.kvMeta = c.wireMeta)

theorem JSONPkt.whole_shows {c : JSONPkt} (h : c.whole = true) : ∃ v, c.Shows v := by
  simp only [whole, Bool.and_eq_true, decide_eq_true_eq] at h
  obtain ⟨hkv, hsame⟩ := h
  obtain ⟨r, hr⟩ := Option.isSome_iff_exists.mp hkv
  obtain ⟨m, hm⟩ := maps_kvMeta hr
  exact ⟨⟨m, c.wireData, c.buff, c.dest⟩, ⟨r, hr, hsame ▸ hr, hm⟩, rfl, rfl, rfl⟩

/-- An operation whose outcome does not depend on what else goes on. -/
def Op.plain : Op → Bool
  | .poolGet | .sendStream _ | .readNonce | .writeStream _ _ => false
  | _ => true

/-- The operations of a goroutine that is left alone: a packet of the pool has one map and
is in the pool once, and `sendPkts` is there to take a packet. -/
structure Attends (H : Endpoint → Choice → (e : Op) → Outcome (e.Res × Endpoint)) : Prop where
  plain : ∀ s c e, e.plain = true → H s c e = s.handle c e
  get : ∀ {s c p s'}, H s c .poolGet = .ok (p, s') →
    s.handle c .poolGet = .ok (p, s') ∧ p ∉ s'.pkts.pool ∧
      ∃ d, s'.pkts.mem[p]? = some d ∧ d.whole = true
  get_new : ∀ s : Endpoint, ∃ c, H s c .poolGet = s.handle c .poolGet
  send : ∀ s c p, H s c (.sendStream p) = .ok ((), { s with sending := some p })

/-- The pool hands out a packet with one map, which it does not have a second time. -/
def PktPool.handsOut (s : PktPool) (choice : Nat) : Bool :=
  (s.pick choice).any JSONPkt.whole && !(s.get choice).2.pool.contains (s.get choice).1

/-- `handle` where the pool hands out such packets, and `sendPkts` takes what it is given. -/
def Endpoint.attended (s : Endpoint) (c : Choice) : (e : Op) → Outcome (e.Res × Endpoint)
  | .poolGet => if s.pkts.handsOut c.pick then s.handle c .poolGet else .block
  | .sendStream p => .ok ((), { s with sending := some p })
  | e => s.handle c e

theorem PktPool.handsOut_iff {s : PktPool} {choice : Nat} :
    s.handsOut choice = true ↔ (s.get choice).1 ∉ (s.get choice).2.pool ∧
      ∃ d, (s.get choice).2.mem[(s.get choice).1]? = some d ∧ d.whole = true := by
  simp only [handsOut, pick, Bool.and_eq_true, Option.any_eq_true, Bool.not_eq_true',
    List.contains_eq_mem, decide_eq_false_iff_not]
  exact and_comm

theorem PktPool.handsOut_new (s : PktPool) : s.handsOut s.pool.length = true := by
  rw [handsOut_iff, get_none (List.getElem?_eq_none (le_refl _))]
  refine ⟨fun hmem => Nat.lt_irrefl _ (s.pool_lt _ hmem), JSONPkt.new, ?_, rfl⟩
  simp [alloc]

theorem Endpoint.attended_attends : Attends Endpoint.attended where
  plain s c e he := by
    cases e with
    | poolGet => cases he
    | sendStream p => cases he
    | _ => rfl
  get {s c p s'} h := by
    simp only [attended] at h
    split at h
    · next hout =>
      refine ⟨h, ?_⟩
      cases h
      exact PktPool.handsOut_iff.mp hout
    · cases h
  get_new s := ⟨⟨s.pkts.pool.length, none⟩, if_pos s.pkts.handsOut_new⟩
  send s c p := rfl

/-! ## 2. Packets -/

namespace Endpoint

/-- Packet object `p` is as the record says. -/
def Has (s : Endpoint) (p : Nat) (v : PktView) : Prop := ∃ c, s.pkts.mem[p]? = some c ∧ c.Shows v

/-- The state with another packet object in the place of `p`. -/
def setPkt (s : Endpoint) (p : Nat) (c : JSONPkt) : Endpoint := { s with pkts := s.pkts.setPkt p c }

theorem getElem?_setPkt_self {s : Endpoint} {p : Nat} {c d : JSONPkt}
    (hp : s.pkts.mem[p]? = some c) : (s.setPkt p d).pkts.mem[p]? = some d :=
  List.getElem?_set_self (List.getElem?_eq_some_iff.mp hp).1

theorem getElem?_setPkt_ne {s : Endpoint} {p q : Nat} {d : JSONPkt} (h : q ≠ p) :
    (s.setPkt p d).pkts.mem[q]? = s.pkts.mem[q]? :=
  List.getElem?_set_ne (Ne.symm h)

theorem setPkt_setPkt (s : Endpoint) (p : Nat) (c d : JSONPkt) :
    (s.setPkt p c).setPkt p d = s.setPkt p d := by
  simp only [setPkt, PktPool.setPkt, List.set_set]

theorem handle_read {s : Endpoint} {p : Nat} {c : JSONPkt} (hp : s.pkts.mem[p]? = some c)
    (r : PktRead) (ch : Choice) : s.handle ch (.read p r) = .ok (r.eval c, s) := by
  simp only [handle, hp]

theorem handle_call {s : Endpoint} {p : Nat} {c q : JSONPkt} (hp : s.pkts.mem[p]? = some c)
    {op : PktOp} (hq : op.apply c = some q) (ch : Choice) :
    s.handle ch (.call p op) = .ok (op.error c, s.setPkt p q) := by
  simp only [handle, hp, hq]
  rfl

theorem setPkt_of_mem {s : Endpoint} {p : Nat} {c : JSONPkt} (hp : s.pkts.mem[p]? = some c) :
    s.setPkt p c = s := by
  simp only [setPkt, PktPool.setPkt, set_self hp]

end Endpoint

/-- `s'` is `s` with the packet object `p` made: it is as the record says, the other
objects are as they were, and `p` is not one of those in use. -/
structure Made (s s' : Endpoint) (p : Nat) (v : PktView) : Prop where
  rest : s' = { s with pkts := s'.pkts }
  has : s'.Has p v
  others : ∀ q, q ≠ p → s'.pkts.mem[q]? = s.pkts.mem[q]?
  free : p ∈ s.pkts.pool ∨ p = s.pkts.mem.length
  pool : ∀ q ∈ s'.pkts.pool, q ∈ s.pkts.pool
  apart : p ∉ s'.pkts.pool

/-- The object `pool.Get` returns, with the contents it has. -/
theorem made_get {s : Endpoint} {choice : Nat} {d : JSONPkt} {v : PktView}
    (hd : (s.pkts.get choice).2.mem[(s.pkts.get choice).1]? = some d) (hv : d.Shows v)
    (hp : (s.pkts.get choice).1 ∉ (s.pkts.get choice).2.pool) :
    Made s { s with pkts := (s.pkts.get choice).2 } (s.pkts.get choice).1 v := by
  cases hc : s.pkts.pool[choice]? with
  | some i =>
    rw [PktPool.get_some hc] at hd hp ⊢
    exact ⟨rfl, ⟨d, hd, hv⟩, fun _ _ => rfl, .inl (List.mem_of_getElem? hc),
      fun q hq => List.mem_of_mem_eraseIdx hq, hp⟩
  | none =>
    rw [PktPool.get_none hc] at hd hp ⊢
    refine ⟨rfl, ⟨d, hd, hv⟩, fun q hq => ?_, .inr rfl, fun q hq => hq, hp⟩
    show (s.pkts.mem ++ [JSONPkt.new])[q]? = s.pkts.mem[q]?
    rcases Nat.lt_or_ge q s.pkts.mem.length with hlt | hge
    · exact List.getElem?_append_left hlt
    · have hgt : s.pkts.mem.length < q := Nat.lt_of_le_of_ne hge (Ne.symm hq)
      rw [List.getElem?_eq_none hge, List.getElem?_eq_none]
      rw [List.length_append]
      exact hgt

theorem Made.keys {s s' : Endpoint} {p : Nat} {v : PktView} (h : Made s s' p v) :
    s'.keys = s.keys := by
  rw [h.rest]

theorem Made.requests {s s' : Endpoint} {p : Nat} {v : PktView} (h : Made s s' p v) :
    s'.requests = s.requests := by
  rw [h.rest]

/-- Calls on the packet that has just been made. -/
theorem Made.setPkt {s s' : Endpoint} {p : Nat} {v w : PktView} {c : JSONPkt} (h : Made s s' p v)
    (hc : c.Shows w) : Made s (s'.setPkt p c) p w := by
  obtain ⟨d, hd, -⟩ := h.has
  refine ⟨?_, ⟨c, Endpoint.getElem?_setPkt_self hd, hc⟩, fun q hq => ?_, h.free, h.pool, h.apart⟩
  · rw [h.rest]
    rfl
  · rw [Endpoint.getElem?_setPkt_ne hq]
    exact h.others q hq

/-- A packet in use is another one. -/
theorem Made.ne {s s' : Endpoint} {p q : Nat} {v : PktView} {c : JSONPkt} (h : Made s s' p v)
    (hc : s.pkts.mem[q]? = some c) (hq : q ∉ s.pkts.pool) : q ≠ p := by
  rintro rfl
  rcases h.free with hmem | heq
  · exact hq hmem
  · exact Nat.ne_of_lt (List.getElem?_eq_some_iff.mp hc).1 heq

/-- A packet in use stays as it is. -/
theorem Made.keeps {s s' : Endpoint} {p q : Nat} {v : PktView} {c : JSONPkt} (h : Made s s' p v)
    (hc : s.pkts.mem[q]? = some c) (hq : q ∉ s.pkts.pool) :
    s'.pkts.mem[q]? = some c ∧ q ∉ s'.pkts.pool :=
  ⟨(h.others q (h.ne hc hq)).trans hc, fun hmem => hq (h.pool q hmem)⟩

/-! ## 3. Rules -/

/-- The observer does not see calls on packets and on the pool. -/
structure Unseen {ω : Type} (obs : ((e : Op) × e.Res) → Option ω) : Prop where
  get : ∀ r, obs ⟨.poolGet, r⟩ = none
  put : ∀ p r, obs ⟨.poolPut p, r⟩ = none
  call : ∀ p op r, obs ⟨.call p op, r⟩ = none
  read : ∀ p q r, obs ⟨.read p q, r⟩ = none

section Rules

variable {H : Endpoint → Choice → (e : Op) → Outcome (e.Res × Endpoint)} {α ω : Type}
  {obs : ((e : Op) × e.Res) → Option ω} {s : Endpoint} {Q : List ω → α → Endpoint → Prop} {p : Nat}

/-- An operation that does what `handle` says, and leaves nothing open. -/
theorem completes_plain (hH : Attends H) {e : Op} (he : e.plain = true) {r : e.Res} {s₁ : Endpoint}
    {f : e.Res → Routine α} (hh : ∀ ch, s.handle ch e = .ok (r, s₁))
    (hf : Completes H obs (f r) s₁ fun o => Q ((obs ⟨e, r⟩).toList ++ o)) :
    Completes H obs (Routine.perform e >>= f) s Q :=
  completes_det (fun ch => (hH.plain s ch e he).trans (hh ch)) hf

/-- The same at the end of a goroutine. -/
theorem perform_completes (hH : Attends H) {e : Op} (he : e.plain = true) {r : e.Res} {s₁ : Endpoint}
    {Q : List ω → e.Res → Endpoint → Prop} (hh : ∀ ch, s.handle ch e = .ok (r, s₁))
    (hQ : Q (obs ⟨e, r⟩).toList r s₁) : Completes H obs (Routine.perform e) s Q := by
  have hdo := fun ch => (hH.plain s ch e he).trans (hh ch)
  refine completes_perform ⟨default, r, s₁, hdo default⟩ fun ch r' s₂ hh' => ?_
  cases (hdo ch).symm.trans hh'
  exact hQ

theorem completes_read (hH : Attends H) (hobs : Unseen obs) {c : JSONPkt} {r : PktRead}
    {f : Bytes → Routine α} (hp : s.pkts.mem[p]? = some c) (hf : Completes H obs (f (r.eval c)) s Q) :
    Completes H obs (Routine.perform (.read p r) >>= f) s Q := by
  refine completes_plain hH rfl (Endpoint.handle_read hp r) ?_
  rw [hobs.read]
  exact hf

theorem completes_perform_call (hH : Attends H) (hobs : Unseen obs) {c q : JSONPkt} {op : PktOp}
    {f : Option JSONPkt.UnmarshalErr → Routine α} (hp : s.pkts.mem[p]? = some c)
    (hq : op.apply c = some q) (hf : Completes H obs (f (op.error c)) (s.setPkt p q) Q) :
    Completes H obs (Routine.perform (.call p op) >>= f) s Q := by
  refine completes_plain hH rfl (Endpoint.handle_call hp hq) ?_
  rw [hobs.call]
  exact hf

theorem completes_call (hH : Attends H) (hobs : Unseen obs) {c q : JSONPkt} {op : PktOp}
    {f : Unit → Routine α} (hp : s.pkts.mem[p]? = some c) (hq : op.apply c = some q)
    (hf : Completes H obs (f ()) (s.setPkt p q) Q) : Completes H obs (Routine.call p op >>= f) s Q :=
  completes_perform_call (f := fun _ => f ()) hH hobs hp hq hf

theorem completes_callAll (hH : Attends H) (hobs : Unseen obs) {c q : JSONPkt} {ops : List PktOp}
    {f : Unit → Routine α} (hp : s.pkts.mem[p]? = some c)
    (hq : ops.foldlM PktOp.apply c = some q) (hf : Completes H obs (f ()) (s.setPkt p q) Q) :
    Completes H obs (Routine.callAll p ops >>= f) s Q := by
  induction ops generalizing s c with
  | nil =>
    cases hq
    rw [Endpoint.setPkt_of_mem hp] at hf
    exact hf
  | cons op ops ih =>
    obtain ⟨d, hd, hq⟩ := Option.bind_eq_some_iff.mp hq
    refine completes_call (f := fun _ => Routine.callAll p ops >>= f) hH hobs hp hd ?_
    refine ih (Endpoint.getElem?_setPkt_self hp) hq ?_
    rw [Endpoint.setPkt_setPkt]
    exact hf

theorem putBack_completes (hH : Attends H) (hobs : Unseen obs) {Q : List ω → Unit → Endpoint → Prop}
    (hQ : Q [] () { s with pkts := s.pkts.put p }) : Completes H obs (Routine.putBack p) s Q := by
  refine perform_completes hH rfl (fun _ => rfl) ?_
  rw [hobs.put]
  exact hQ

theorem sendStream_completes (hH : Attends H) {Q : List ω → Unit → Endpoint → Prop}
    (hQ : Q (obs ⟨.sendStream p, ()⟩).toList () { s with sending := some p }) :
    Completes H obs (Routine.perform (.sendStream p)) s Q := by
  refine completes_perform ⟨default, _, _, hH.send s default p⟩ fun ch r s₁ hh => ?_
  cases (hH.send s ch p).symm.trans hh
  exact hQ

/-- A packet of the pool, and calls on it. -/
theorem getAll_completes (hH : Attends H) (hobs : Unseen obs) {ops : List PktOp}
    (hops : ∀ op ∈ ops, op.isEdit = true) :
    Completes H obs (do let p ← Routine.perform .poolGet; Routine.callAll p ops; return p) s
      fun o p s' => o = [] ∧ ∃ v, Made s s' p (ops.foldl PktView.after v) := by
  obtain ⟨ch, hnew⟩ := hH.get_new s
  refine completes_op ⟨ch, _, _, hnew⟩ fun ch p s₁ hh => ?_
  obtain ⟨hget, hp, d, hd, hwhole⟩ := hH.get hh
  obtain ⟨v, hv⟩ := JSONPkt.whole_shows hwhole
  cases hget
  obtain ⟨q, hq, hshows⟩ := hv.applyAll hops
  rw [hobs.get]
  exact completes_callAll hH hobs hd hq (completes_pure ⟨rfl, v, (made_get hd hv hp).setPkt hshows⟩)

theorem isEdit_newPktOps (ref dest : GoString) : ∀ op ∈ newPktOps ref dest, op.isEdit = true := by
  intro op hop
  simp only [newPktOps, List.mem_cons, List.not_mem_nil, or_false] at hop
  rcases hop with rfl | rfl | rfl | rfl <;> rfl

theorem newPkt_completes (hH : Attends H) (hobs : Unseen obs) (ref dest : GoString) :
    Completes H obs (Routine.newPkt ref dest) s fun o p s' =>
      o = [] ∧ ∃ wire, Made s s' p ⟨JSONPkt.refMeta ref, wire, [], dest⟩ :=
  (getAll_completes hH hobs (isEdit_newPktOps ref dest)).mono fun _ _ _ ⟨ho, v, hmade⟩ =>
    ⟨ho, v.wire, hmade⟩

theorem newErrPkt_completes (hH : Attends H) (hobs : Unseen obs) (ref dest msg : GoString) :
    Completes H obs (Routine.newErrPkt ref dest msg) s fun o p s' =>
      o = [] ∧ ∃ wire, Made s s' p ⟨JSONPkt.errMeta ref msg, wire, [], dest⟩ := by
  have hops : ∀ op ∈ newErrPktOps ref dest msg, op.isEdit = true := by
    intro op hop
    rcases List.mem_append.mp hop with hop | hop
    · exact isEdit_newPktOps ref dest op hop
    · simp only [List.mem_cons, List.not_mem_nil, or_false] at hop
      rcases hop with rfl | rfl <;> rfl
  exact (getAll_completes hH hobs hops).mono fun _ _ _ ⟨ho, v, hmade⟩ => ⟨ho, v.wire, hmade⟩

end Rules

end Concord
