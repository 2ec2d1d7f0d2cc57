import Mathlib.Data.List.Nodup
import Concord.Throttle

/-!
# The reading half of a throttle

`Memory`: where each result of the connection is, in a packet with a buffer of its own or still in
the read buffer. A read writes to the read buffer only, so that no later read changes it
(`Memory.filled`, `Memory.copied`). `Calls`: what a call of `ReadFrom` has returned is what it has
received.
-/

namespace Concord

open Go

namespace UDPThrottle

theorem readFromUDP_length (rbuff d : Bytes) : (readFromUDP rbuff d).2.length = rbuff.length := by
  simp only [readFromUDP, List.length_append, List.length_take, List.length_drop]
  omega

theorem readFromUDP_le (rbuff d : Bytes) : (readFromUDP rbuff d).1 ≤ rbuff.length :=
  Nat.min_le_right _ _

/-- The bytes read are those of the datagram that the buffer holds. -/
theorem readFromUDP_take (rbuff d : Bytes) :
    (readFromUDP rbuff d).2.take (readFromUDP rbuff d).1 = d.take rbuff.length := by
  have hlen : (d.take (min d.length rbuff.length)).length = min d.length rbuff.length := by
    rw [List.length_take]
    omega
  simp only [readFromUDP]
  rw [List.take_append_of_le_length hlen.ge, List.take_take, Nat.min_self, Nat.min_comm,
    ← List.take_eq_take_min]

/-- A copy into a new slice. -/
theorem copy_new {n : Nat} {src : Bytes} (h : n ≤ src.length) :
    copy (List.replicate n 0) src = src.take n := by
  rw [copy, List.length_replicate, List.drop_eq_nil_of_le (by rwa [List.length_replicate]),
    List.append_nil]

namespace Reading

/-- The packet that is to be sent to `recv`. -/
def made (s : Reading) : List ReadPkt :=
  match s.loc with
  | .sending pkt => [pkt]
  | _ => []

/-- The packets that were made: those that were received, those in `recv`, and the one that is to
be sent there. -/
def pkts (s : Reading) : List ReadPkt := s.received.map Prod.snd ++ s.recv.items ++ s.made

/-- What was read and is not yet copied. -/
def uncopied (s : Reading) : List ReadResult :=
  match s.loc with
  | .copying n sender err => [⟨(s.buf 0).take n, sender, err⟩]
  | _ => []

/-- What a packet holds, with the contents of its buffer. -/
def view (s : Reading) (pkt : ReadPkt) : ReadResult := ⟨s.buf pkt.data, pkt.sender, pkt.err⟩

/-- What was read and is not yet received. -/
def undelivered (s : Reading) : List ReadResult := (s.recv.items ++ s.made).map s.view ++ s.uncopied

/-- The read buffer has its size, every packet has a buffer of its own, and what was read is in
the packets and the read buffer. -/
structure Memory (rbuffSize : Nat) (s : Reading) : Prop where
  rbuff : (s.buf 0).length = rbuffSize
  bufs : 0 < s.bufs.length
  copying : ∀ n sender err, s.loc = .copying n sender err → n ≤ rbuffSize
  own : ∀ pkt ∈ s.pkts, 0 < pkt.data ∧ pkt.data < s.bufs.length
  results : s.pkts.map s.view ++ s.uncopied = s.results.map (·.cut rbuffSize)

/-- A call has returned what it has received, and has received once. -/
structure Calls (s : Reading) : Prop where
  returned : ∀ i pkt, s.calls[i]? = some (some pkt) ↔ (i, pkt) ∈ s.received
  nodup : (s.received.map Prod.fst).Nodup

theorem memory_new (rbuffSize : Nat) : (new rbuffSize).Memory rbuffSize where
  rbuff := List.length_replicate
  bufs := Nat.zero_lt_one
  copying _ _ _ h := by cases h
  own _ h := absurd h List.not_mem_nil
  results := rfl

theorem calls_new (rbuffSize : Nat) : (new rbuffSize).Calls where
  returned i pkt := by
    constructor
    · intro h
      cases h
    · intro h
      exact absurd h List.not_mem_nil
  nodup := List.nodup_nil

variable {rbuffSize : Nat} {s s' : Reading}

/-- Nothing is read or made; at most a packet is handed on. -/
theorem Memory.handed (hs : s.Memory rbuffSize) (hbufs : s'.bufs = s.bufs)
    (hpkts : s'.pkts = s.pkts) (huncopied : s'.uncopied = s.uncopied)
    (hresults : s'.results = s.results)
    (hloc : ∀ n sender err, s'.loc = .copying n sender err → s.loc = .copying n sender err) :
    s'.Memory rbuffSize := by
  have hbuf : s'.buf = s.buf := by
    funext b
    rw [buf, hbufs, buf]
  have hview : s'.view = s.view := by
    funext pkt
    rw [view, hbuf, view]
  refine ⟨?_, ?_, fun n sender err h => hs.copying n sender err (hloc n sender err h), ?_, ?_⟩
  · rw [hbuf]
    exact hs.rbuff
  · rw [hbufs]
    exact hs.bufs
  · rw [hpkts, hbufs]
    exact hs.own
  · rw [hpkts, hview, huncopied, hresults]
    exact hs.results

/-- A packet keeps its contents when the read buffer is written. -/
theorem view_set {pkt : ReadPkt} {rbuff : Bytes} (hbufs : s'.bufs = s.bufs.set 0 rbuff)
    (hpkt : 0 < pkt.data) : s'.view pkt = s.view pkt := by
  simp only [view, buf, hbufs, List.getD_eq_getElem?_getD]
  rw [List.getElem?_set_ne hpkt.ne]

/-- A packet keeps its contents when a slice is made. -/
theorem view_append {pkt : ReadPkt} {data : Bytes} (hbufs : s'.bufs = s.bufs ++ [data])
    (hpkt : pkt.data < s.bufs.length) : s'.view pkt = s.view pkt := by
  simp only [view, buf, hbufs, List.getD_eq_getElem?_getD]
  rw [List.getElem?_append_left hpkt]

/-- A read of the connection fills the read buffer and nothing else. -/
theorem Memory.filled (hs : s.Memory rbuffSize) (hloc : s.loc = .reading) (d : ReadResult) :
    (s.filled d).Memory rbuffSize := by
  have hbufs : (s.filled d).bufs = s.bufs.set 0 (readFromUDP (s.buf 0) d.data).2 := rfl
  have hbuf : (s.filled d).buf 0 = (readFromUDP (s.buf 0) d.data).2 := by
    rw [buf, hbufs, List.getD_eq_getElem?_getD, List.getElem?_set_self hs.bufs]
    rfl
  have hpkts : (s.filled d).pkts = s.pkts := by simp only [Reading.filled, pkts, made, hloc]
  have huncopied : s.uncopied = [] := by rw [uncopied, hloc]
  have hread : (s.filled d).uncopied = [d.cut rbuffSize] := by
    show [(⟨((s.filled d).buf 0).take (readFromUDP (s.buf 0) d.data).1, d.sender, d.err⟩ :
      ReadResult)] = _
    rw [hbuf, readFromUDP_take, hs.rbuff]
    rfl
  -- the packets have buffers other than the read buffer
  have hview : s.pkts.map (s.filled d).view = s.pkts.map s.view :=
    List.map_congr_left fun pkt hpkt => view_set hbufs (hs.own pkt hpkt).1
  refine ⟨?_, ?_, ?_, ?_, ?_⟩
  · rw [hbuf, readFromUDP_length]
    exact hs.rbuff
  · rw [hbufs, List.length_set]
    exact hs.bufs
  · intro n sender err hcopying
    cases hcopying
    rw [← hs.rbuff]
    exact readFromUDP_le _ _
  · rw [hpkts, hbufs, List.length_set]
    exact hs.own
  · have hresults : (s.filled d).results = s.results ++ [d] := rfl
    rw [hpkts, hview, hread, hresults, List.map_append, ← hs.results, huncopied, List.append_nil]
    rfl

/-- The slice that is made holds what was read. -/
theorem Memory.copied {n : Nat} {sender : Option Addr} {err : Option GoString}
    (hs : s.Memory rbuffSize) (hloc : s.loc = .copying n sender err) :
    (s.copied n sender err).Memory rbuffSize := by
  have hn : n ≤ (s.buf 0).length := by
    rw [hs.rbuff]
    exact hs.copying n sender err hloc
  have hbufs : (s.copied n sender err).bufs = s.bufs ++ [(s.buf 0).take n] := by
    rw [Reading.copied, copy_new hn]
  have hpkts : (s.copied n sender err).pkts = s.pkts ++ [⟨s.bufs.length, sender, err⟩] := by
    simp only [Reading.copied, pkts, made, hloc, List.append_nil]
  have hnew : (s.copied n sender err).view ⟨s.bufs.length, sender, err⟩ =
      ⟨(s.buf 0).take n, sender, err⟩ := by
    simp only [view, buf, hbufs, List.getD_eq_getElem?_getD]
    rw [List.getElem?_concat_length]
    rfl
  have hview : s.pkts.map (s.copied n sender err).view = s.pkts.map s.view :=
    List.map_congr_left fun pkt hpkt => view_append hbufs (hs.own pkt hpkt).2
  refine ⟨?_, ?_, ?_, ?_, ?_⟩
  · rw [buf, hbufs, List.getD_eq_getElem?_getD, List.getElem?_append_left hs.bufs,
      ← List.getD_eq_getElem?_getD]
    exact hs.rbuff
  · rw [hbufs, List.length_append]
    exact Nat.lt_add_right _ hs.bufs
  · intro n sender err hcopying
    cases hcopying
  · rw [hpkts, hbufs, List.length_append]
    intro pkt hpkt
    rcases List.mem_append.mp hpkt with hpkt | hpkt
    · exact ⟨(hs.own pkt hpkt).1, Nat.lt_add_right _ (hs.own pkt hpkt).2⟩
    · rw [List.mem_singleton.mp hpkt]
      exact ⟨hs.bufs, Nat.lt_succ_self _⟩
  · have huncopied : (s.copied n sender err).uncopied = [] := rfl
    have hresults : (s.copied n sender err).results = s.results := rfl
    rw [hpkts, huncopied, List.map_append, hview, List.map_singleton, hnew, List.append_nil,
      hresults, ← hs.results, uncopied, hloc]

theorem step_memory {done : Bool} {ev : ReadEvent} (hs : s.Memory rbuffSize)
    (h : s.step done ev = some s') : s'.Memory rbuffSize := by
  cases step_does h with
  | call => exact hs.handed rfl rfl rfl rfl fun _ _ _ h => h
  | receive _ hrecv =>
    refine hs.handed rfl ?_ rfl rfl fun _ _ _ h => h
    simp only [pkts, made, delivered, Chan.recv_eq_some.mp hrecv, List.map_append,
      List.append_assoc, List.map_singleton, List.cons_append, List.nil_append]
  | conn d hloc => exact hs.filled hloc d
  | copy hloc => exact hs.copied hloc
  | send hloc hsend =>
    refine hs.handed rfl ?_ (by simp only [uncopied, hloc]) rfl fun _ _ _ h => by cases h
    simp only [pkts, made, hloc, (Chan.send_eq_some.mp hsend).2, List.append_assoc,
      List.append_nil]
  | poll hloc _ | wake hloc =>
    exact hs.handed rfl (by simp only [pkts, made, hloc]) (by simp only [uncopied, hloc]) rfl
      fun _ _ _ h => by cases h

/-- `read` returns. -/
theorem Memory.stopped (hs : s.Memory rbuffSize) (hloc : s.loc = .loop) :
    Memory rbuffSize { s with loc := .returned } :=
  hs.handed rfl (by simp only [pkts, made, hloc]) (by simp only [uncopied, hloc]) rfl
    fun _ _ _ h => by cases h

/-- Only a call and a receive have to do with the calls. -/
theorem step_frame {done : Bool} {ev : ReadEvent} (h : s.step done ev = some s') :
    (s'.calls = s.calls ∧ s'.received = s.received) ∨
    (s'.calls = s.calls ++ [none] ∧ s'.received = s.received) ∨
    ∃ i pkt, s.calls[i]? = some none ∧ s'.calls = s.calls.set i (some pkt) ∧
      s'.received = s.received ++ [(i, pkt)] := by
  cases step_does h with
  | call => exact .inr (.inl ⟨rfl, rfl⟩)
  | receive hcall _ => exact .inr (.inr ⟨_, _, hcall, rfl, rfl⟩)
  | poll _ _ | conn _ _ | copy _ | send _ _ | wake _ => exact .inl ⟨rfl, rfl⟩

theorem step_calls {done : Bool} {ev : ReadEvent} (hs : s.Calls) (h : s.step done ev = some s') :
    s'.Calls := by
  rcases step_frame h with ⟨hcalls, hreceived⟩ | ⟨hcalls, hreceived⟩ |
    ⟨i, pkt, hi, hcalls, hreceived⟩
  · refine ⟨?_, ?_⟩ <;> rw [hreceived]
    · rw [hcalls]
      exact hs.returned
    · exact hs.nodup
  · refine ⟨fun j pkt => ?_, ?_⟩ <;> rw [hreceived]
    · rw [← hs.returned, hcalls]
      constructor
      · intro hj
        rcases getElem?_snoc_cases hj with hj | ⟨-, hj⟩
        · exact hj
        · cases hj
      · intro hj
        rw [List.getElem?_append_left (List.getElem?_eq_some_iff.mp hj).1]
        exact hj
    · exact hs.nodup
  · -- the call has not received before
    have hlt : i < s.calls.length := (List.getElem?_eq_some_iff.mp hi).1
    have hnew : ∀ pkt', (i, pkt') ∉ s.received := by
      intro pkt' hmem
      have hret := (hs.returned i pkt').mpr hmem
      rw [hi] at hret
      cases hret
    refine ⟨fun j pkt' => ?_, ?_⟩
    · rw [hcalls, hreceived, List.mem_append, List.mem_singleton, Prod.mk.injEq]
      by_cases hij : i = j
      · subst hij
        rw [List.getElem?_set_self hlt, Option.some.injEq, Option.some.injEq]
        constructor
        · intro heq
          exact .inr ⟨rfl, heq.symm⟩
        · rintro (hmem | ⟨-, heq⟩)
          · exact absurd hmem (hnew pkt')
          · exact heq.symm
      · rw [List.getElem?_set_ne hij, hs.returned]
        constructor
        · exact .inl
        · rintro (hmem | ⟨heq, -⟩)
          · exact hmem
          · exact absurd heq.symm hij
    · rw [hreceived, List.map_append, List.nodup_append]
      refine ⟨hs.nodup, List.nodup_singleton _, ?_⟩
      rintro a ha b hb rfl
      obtain ⟨⟨j, pkt'⟩, hmem, rfl⟩ := List.mem_map.mp ha
      cases List.mem_singleton.mp hb
      exact hnew pkt' hmem

end Reading

end UDPThrottle

end Concord
