import Mathlib.Data.List.Perm.Subperm
import Concord.Go.Custody
import Concord.ThrottleRefinement

/-!
# Routines that call a throttle

A client and a server use their throttle in two ways. One routine makes the calls of `WriteTo`,
each after the last has returned (`OneCaller`), so that what is passed to the connection is a
first part of what was asked for, in that order: `OneCaller.passed_isPrefix`. A few routines make
the calls of `ReadFrom` (`Drawn`), so that what they have drawn is among what the connection has
given, nothing twice: `Drawn.subperm`.
-/

namespace Concord

open Go

namespace UDPThrottle

variable {th th' : UDPThrottle}

/-- A step of the routines, or of a call that has begun. -/
def Event.ongoing : Event → Bool
  | .read .call | .write (.call _ _) => false
  | .read _ | .write _ => true
  | _ => false

theorem step_ongoing {ev : Event} (hev : ev.ongoing = true) (h : th.step ev = .ok th') :
    (∃ e done, ev = .read e ∧ e ≠ .call ∧ th.reading.step done e = some th'.reading ∧
      th'.writing = th.writing) ∨
    ∃ e, ev = .write e ∧ (∀ data addr, e ≠ .call data addr) ∧
      th.writing.step e = some th'.writing ∧ th'.reading = th.reading := by
  cases ev with
  | read e =>
    simp only [step] at h
    split at h
    · next r hr =>
      cases h
      refine .inl ⟨e, _, rfl, ?_, hr, rfl⟩
      rintro rfl
      cases hev
    · cases h
  | write e =>
    simp only [step] at h
    split at h
    · next w hw =>
      cases h
      refine .inr ⟨e, rfl, ?_, hw, rfl⟩
      rintro data addr rfl
      cases hev
    · cases h
  | _ => cases hev

theorem step_ongoing_crash {ev : Event} (hev : ev.ongoing = true) : th.step ev ≠ .crash := by
  intro h
  cases ev with
  | read e =>
    simp only [step] at h
    split at h
    · cases h
    · cases h
  | write e =>
    simp only [step] at h
    split at h
    · cases h
    · cases h
  | _ => cases hev

/-! ## 1. One caller of `WriteTo` -/

namespace Writing

variable {s s' : Writing} {cur : Option Nat}

/-- What was asked to be written, call by call. -/
def asked (s : Writing) : List (Bytes × Addr) := s.calls.map fun c => (c.data, c.addr)

theorem asked_call {s : Writing} (data : Bytes) (addr : Addr) :
    asked { s with calls := s.calls ++ [⟨data, addr, .sending⟩] } = s.asked ++ [(data, addr)] :=
  List.map_append

/-- What was passed to the connection. -/
def passed (s : Writing) : List (Bytes × Addr) := s.written.map fun x => (x.1.data, x.1.addr)

/-- The calls are made one after the other; `cur` is the one that has not returned. -/
structure OneCaller (s : Writing) (cur : Option Nat) : Prop where
  order : s.accepted.map WritePkt.respCh = List.range s.accepted.length
  idle : cur = none → s.accepted.length = s.calls.length
  busy : ∀ i, cur = some i → s.calls.length = i + 1 ∧ i ≤ s.accepted.length

theorem oneCaller_new : new.OneCaller none := ⟨rfl, fun _ => rfl, fun _ h => nomatch h⟩

theorem OneCaller.call (hs : s.OneCaller none) (data : Bytes) (addr : Addr) :
    OneCaller { s with calls := s.calls ++ [⟨data, addr, .sending⟩] } (some s.calls.length) where
  order := hs.order
  idle h := nomatch h
  busy i hi := by
    cases hi
    exact ⟨List.length_append, (hs.idle rfl).ge⟩

/-- A call that has not been accepted is later than those that were. -/
theorem OneCaller.accepted_le (hs : s.OneCaller cur) (hinv : s.Inv) {i : Nat} {c : WriteCall}
    (hi : s.calls[i]? = some c) (hc : c.loc = .sending) : s.accepted.length ≤ i := by
  by_contra hlt
  have hmem : i ∈ s.accepted.map WritePkt.respCh := by
    rw [hs.order, List.mem_range]
    omega
  obtain ⟨pkt, hpkt, rfl⟩ := List.mem_map.mp hmem
  exact hinv.respCh_ne hi hc hpkt rfl

/-- A call that is not sending any more was accepted. -/
theorem OneCaller.lt_accepted (hs : s.OneCaller cur) (hinv : s.Inv) {i : Nat} {c : WriteCall}
    (hi : s.calls[i]? = some c) (hc : c.loc ≠ .sending) : i < s.accepted.length := by
  have hmem := hinv.calls i c hi hc
  rw [hs.order, List.mem_range] at hmem
  exact hmem

/-- The call has returned. -/
theorem OneCaller.returned {i : Nat} {c : WriteCall} (hs : s.OneCaller (some i)) (hinv : s.Inv)
    (hi : s.calls[i]? = some c) (hc : c.loc ≠ .sending) : s.OneCaller none where
  order := hs.order
  idle _ := by
    have hlt := hs.lt_accepted hinv hi hc
    obtain ⟨hlen, -⟩ := hs.busy i rfl
    have hle : s.accepted.length ≤ s.calls.length := by
      have hlast : s.accepted.length - 1 ∈ s.accepted.map WritePkt.respCh := by
        rw [hs.order, List.mem_range]
        omega
      obtain ⟨pkt, hpkt, hresp⟩ := List.mem_map.mp hlast
      obtain ⟨loc, hcall, -⟩ := hinv.call_of_accepted hpkt
      have := (List.getElem?_eq_some_iff.mp hcall).1
      omega
    omega
  busy _ h := nomatch h

theorem OneCaller.step (hs : s.OneCaller cur) (hinv : s.Inv) {e : WriteEvent}
    (he : ∀ data addr, e ≠ .call data addr) (h : s.step e = some s') :
    s'.OneCaller cur ∧ s'.asked = s.asked := by
  cases step_does h with
  | call data addr => exact absurd rfl (he data addr)
  | @send i c send hi hc hsend =>
    -- there is one call that has not been accepted, the current one
    have hle := hs.accepted_le hinv hi hc
    have hlt := (List.getElem?_eq_some_iff.mp hi).1
    have hlen : s.accepted.length = i := by
      cases cur with
      | none =>
        have := hs.idle rfl
        omega
      | some j =>
        have := hs.busy j rfl
        omega
    refine ⟨⟨?_, fun hcur => ?_, fun j hj => ?_⟩, ?_⟩
    · show (s.accepted ++ [_]).map _ = List.range (s.accepted ++ [_]).length
      rw [List.map_append, hs.order, List.length_append, List.length_singleton, List.range_succ, hlen]
      rfl
    · have := hs.idle hcur
      omega
    · obtain ⟨hcalls, hj⟩ := hs.busy j hj
      refine ⟨List.length_set.trans hcalls, ?_⟩
      show j ≤ (s.accepted ++ [_]).length
      rw [List.length_append]
      omega
    · show (s.calls.set i _).map _ = _
      rw [List.map_set]
      exact set_self (by rw [List.getElem?_map, hi]; rfl)
  | take hloc hrecv => exact ⟨⟨hs.order, hs.idle, hs.busy⟩, rfl⟩
  | conn status hloc => exact ⟨⟨hs.order, hs.idle, hs.busy⟩, rfl⟩
  | @reply pkt status c hloc hi hc =>
    refine ⟨⟨hs.order, fun hcur => (hs.idle hcur).trans List.length_set.symm, fun j hj => ?_⟩, ?_⟩
    · exact ⟨List.length_set.trans (hs.busy j hj).1, (hs.busy j hj).2⟩
    · show (s.calls.set pkt.respCh _).map _ = _
      rw [List.map_set]
      exact set_self (by rw [List.getElem?_map, hi]; rfl)
  | wake hloc => exact ⟨⟨hs.order, hs.idle, hs.busy⟩, rfl⟩

/-- What was accepted is a first part of what was asked for. -/
theorem OneCaller.accepted_eq (hs : s.OneCaller cur) (hinv : s.Inv) :
    (s.accepted.map fun p => (p.data, p.addr)) = s.asked.take s.accepted.length := by
  refine List.ext_getElem? fun m => ?_
  rw [List.getElem?_map]
  cases hm : s.accepted[m]? with
  | none =>
    have hle := List.getElem?_eq_none_iff.mp hm
    rw [List.getElem?_take_eq_none hle]
    rfl
  | some p =>
    have hlt := (List.getElem?_eq_some_iff.mp hm).1
    have hresp : p.respCh = m := by
      have hmap : (s.accepted.map WritePkt.respCh)[m]? = some p.respCh := by
        rw [List.getElem?_map, hm]
        rfl
      rw [hs.order, List.getElem?_range hlt] at hmap
      exact (Option.some.inj hmap).symm
    obtain ⟨loc, hcall, -⟩ := hinv.call_of_accepted (List.mem_of_getElem? hm)
    rw [hresp] at hcall
    rw [List.getElem?_take_of_lt hlt, asked, List.getElem?_map, hcall]
    rfl

/-- What is passed to the connection is a first part of what was asked for. -/
theorem OneCaller.passed_isPrefix (hs : s.OneCaller cur) (hinv : s.Inv) : s.passed <+: s.asked := by
  have hwritten : s.passed <+: s.accepted.map fun p => (p.data, p.addr) := by
    rw [hinv.accepted, List.map_append, List.map_map]
    exact List.prefix_append _ _
  rw [hs.accepted_eq hinv] at hwritten
  exact hwritten.trans (List.take_prefix _ _)

end Writing

/-! ## 2. Callers of `ReadFrom` -/

/-- `String()` of the sender, which is not nil unless there is an error. -/
def senderText : Option Addr → GoString
  | some addr => addr
  | none => ascii "<nil>"

/-- The datagram that was read, if there was no error. -/
def ReadResult.datagram? (d : ReadResult) : Option (Bytes × GoString) :=
  match d.err with
  | none => some (d.data, senderText d.sender)
  | some _ => none

namespace Reading

variable {s s' : Reading} {rbuffSize : Nat}

/-- The datagrams the connection has given. -/
def given (s : Reading) (rbuffSize : Nat) : List (Bytes × GoString) :=
  s.results.filterMap fun d => (d.cut rbuffSize).datagram?

/-- A packet keeps its contents. -/
theorem step_view (hs : s.Memory rbuffSize) {done : Bool} {e : ReadEvent}
    (h : s.step done e = some s') {pkt : ReadPkt} (hpkt : pkt ∈ s.pkts) :
    s'.view pkt = s.view pkt := by
  cases step_does h with
  | conn d hloc => exact view_set rfl (hs.own pkt hpkt).1
  | copy hloc => exact view_append rfl (hs.own pkt hpkt).2
  | call | receive _ _ | poll _ _ | send _ _ | wake _ => rfl

theorem step_results {done : Bool} {e : ReadEvent} (h : s.step done e = some s') :
    s'.results = s.results ∨ ∃ d, e = .conn d ∧ s'.results = s.results ++ [d] := by
  cases step_does h with
  | conn d hloc => exact .inr ⟨d, rfl, rfl⟩
  | call | receive _ _ | poll _ _ | copy _ | send _ _ | wake _ => exact .inl rfl

/-- A call that has returned stays so, and the calls grow in number only. -/
theorem step_returned {done : Bool} {e : ReadEvent} (h : s.step done e = some s') :
    (e ≠ .call → s'.calls.length = s.calls.length) ∧
    ∀ {i : Nat} {pkt : ReadPkt}, s.calls[i]? = some (some pkt) → s'.calls[i]? = some (some pkt) := by
  cases step_does h with
  | call =>
    refine ⟨fun h => absurd rfl h, fun {i pkt} hi => ?_⟩
    show (s.calls ++ [none])[i]? = _
    rw [List.getElem?_append_left (List.getElem?_eq_some_iff.mp hi).1]
    exact hi
  | @receive j pkt' recv hj hrecv =>
    refine ⟨fun _ => List.length_set, fun {i pkt} hi => ?_⟩
    show (s.calls.set j _)[i]? = _
    rw [List.getElem?_set_ne]
    · exact hi
    · rintro rfl
      rw [hj] at hi
      cases hi
  | poll _ _ | conn _ _ | copy _ | send _ _ | wake _ => exact ⟨fun _ => rfl, fun hi => hi⟩

/-- Every call of `ReadFrom` is that of one caller, or it has returned and its caller has taken
what it returned. -/
structure Drawn (s : Reading) (callers : List (Option Nat)) (drawn : List (Nat × ReadPkt)) :
    Prop where
  custody : Custody (List.range s.calls.length) callers none (drawn.map Prod.fst)
  returned : ∀ x ∈ drawn, s.calls[x.1]? = some (some x.2)

variable {callers : List (Option Nat)} {drawn : List (Nat × ReadPkt)}

theorem Drawn.step (hs : s.Drawn callers drawn) {done : Bool} {e : ReadEvent} (he : e ≠ .call)
    (h : s.step done e = some s') : s'.Drawn callers drawn := by
  obtain ⟨hlen, hret⟩ := step_returned h
  refine ⟨?_, fun x hx => hret (hs.returned x hx)⟩
  rw [hlen he]
  exact hs.custody

/-- A caller takes what its call has returned, and makes no other. -/
theorem Drawn.draw (hs : s.Drawn callers drawn) {j i : Nat} {pkt : ReadPkt}
    (hj : callers[j]? = some (some i)) (hi : s.calls[i]? = some (some pkt)) :
    s.Drawn (callers.set j none) (drawn ++ [(i, pkt)]) := by
  refine ⟨?_, fun x hx => ?_⟩
  · rw [List.map_append]
    exact hs.custody.discharge hj
  · rcases List.mem_append.mp hx with hx | hx
    · exact hs.returned x hx
    · rw [List.mem_singleton.mp hx]
      exact hi

/-- A caller without a call makes one. -/
theorem Drawn.call (hs : s.Drawn callers drawn) {j : Nat} (hj : callers[j]? = some none) :
    Drawn { s with calls := s.calls ++ [none] } (callers.set j (some s.calls.length)) drawn := by
  refine ⟨?_, fun x hx => ?_⟩
  · rw [List.length_append, List.length_singleton, List.range_succ]
    exact hs.custody.renew hj _
  · have hx := hs.returned x hx
    rw [List.getElem?_append_left (List.getElem?_eq_some_iff.mp hx).1]
    exact hx

/-- What was drawn is among what the connection has given, nothing twice. -/
theorem Drawn.subperm (hs : s.Drawn callers drawn) (hcalls : s.Calls) (hmem : s.Memory rbuffSize) :
    (drawn.filterMap fun x => (s.view x.2).datagram?).Subperm (s.given rbuffSize) := by
  have hnodup : drawn.Nodup := by
    have hrange := (hs.custody.nodup_iff).mp List.nodup_range
    exact .of_map _ (List.nodup_append.mp (List.nodup_append.mp hrange).2.1).2.1
  have hsub : drawn.Subperm s.received :=
    List.subperm_of_subset hnodup fun x hx => (hcalls.returned _ _).mp (hs.returned x hx)
  have hreceived : (s.received.map fun x => s.view x.2).Sublist (s.results.map (·.cut rbuffSize)) := by
    rw [← hmem.results, pkts, List.append_assoc, List.map_append, List.map_map, List.append_assoc]
    exact List.sublist_append_left _ _
  obtain ⟨l, hperm, hl⟩ := hsub
  have hgiven := hreceived.filterMap ReadResult.datagram?
  rw [List.filterMap_map, List.filterMap_map] at hgiven
  exact ⟨_, hperm.filterMap _, (hl.filterMap _).trans hgiven⟩

end Reading

end UDPThrottle

end Concord
