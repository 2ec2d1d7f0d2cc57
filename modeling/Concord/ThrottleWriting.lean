import Mathlib.Data.List.Nodup
import Concord.Throttle

/-!
# The writing half of a throttle

`Inv`: where each accepted write is, and which call waits for it. `Inv.own_status`: a call that has
returned has the status of the one write that was made for it, that of its own data.
-/

namespace Concord

open Go

namespace UDPThrottle

namespace Writing

/-- The write that `write` has taken and has not answered. -/
def taken (s : Writing) : List WritePkt :=
  match s.loc with
  | .writing pkt => [pkt]
  | .replying pkt _ => [pkt]
  | _ => []

/-- What was accepted and is not yet written. -/
def unwritten (s : Writing) : List WritePkt :=
  (match s.loc with
  | .writing pkt => [pkt]
  | _ => []) ++ s.send.items

/-- What was written and is not yet replied. -/
def unreplied (s : Writing) : List (WritePkt × WriteStatus) :=
  match s.loc with
  | .replying pkt status => [(pkt, status)]
  | _ => []

/-- What was accepted is written or to be written, in order, and what was written is replied or
to be replied. A call waits until it has the reply to its own write. -/
structure Inv (s : Writing) : Prop where
  accepted : s.accepted = s.written.map Prod.fst ++ s.unwritten
  written : s.written = s.replied ++ s.unreplied
  nodup : (s.accepted.map WritePkt.respCh).Nodup
  calls : ∀ i c, s.calls[i]? = some c → c.loc ≠ .sending → i ∈ s.accepted.map WritePkt.respCh
  waiting : ∀ pkt ∈ s.taken ++ s.send.items,
    s.calls[pkt.respCh]? = some ⟨pkt.data, pkt.addr, .waiting⟩
  returned : ∀ x ∈ s.replied, s.calls[x.1.respCh]? = some ⟨x.1.data, x.1.addr, .returned x.2⟩

theorem inv_new : new.Inv where
  accepted := rfl
  written := rfl
  nodup := List.nodup_nil
  calls _ _ h := by cases h
  waiting _ h := absurd h List.not_mem_nil
  returned _ h := absurd h List.not_mem_nil

variable {s s' : Writing}

/-- What was accepted is replied, or a call waits for it. -/
theorem Inv.accepted_eq (hs : s.Inv) :
    s.accepted = s.replied.map Prod.fst ++ (s.taken ++ s.send.items) := by
  rw [hs.accepted, hs.written, List.map_append, List.append_assoc]
  congr 1
  unfold unreplied unwritten taken
  cases s.loc <;> rfl

/-- A call has sent its write if it was accepted. -/
theorem Inv.call_of_accepted {pkt : WritePkt} (hs : s.Inv) (h : pkt ∈ s.accepted) :
    ∃ loc, s.calls[pkt.respCh]? = some ⟨pkt.data, pkt.addr, loc⟩ ∧ loc ≠ .sending := by
  rw [hs.accepted_eq] at h
  rcases List.mem_append.mp h with h | h
  · obtain ⟨x, hx, rfl⟩ := List.mem_map.mp h
    exact ⟨_, hs.returned x hx, fun heq => by cases heq⟩
  · exact ⟨_, hs.waiting pkt h, fun heq => by cases heq⟩

/-- A call that has not sent its write has none among the accepted ones. -/
theorem Inv.respCh_ne {pkt : WritePkt} {i : Nat} {c : WriteCall} (hs : s.Inv)
    (hi : s.calls[i]? = some c) (hc : c.loc = .sending) (h : pkt ∈ s.accepted) :
    pkt.respCh ≠ i := by
  rintro rfl
  obtain ⟨loc, hloc, hne⟩ := hs.call_of_accepted h
  rw [hi] at hloc
  cases hloc
  exact hne hc

/-- The write that is being answered is no other's. -/
theorem Inv.others {pkt pkt' : WritePkt} (hs : s.Inv) (htaken : s.taken = [pkt])
    (h : pkt' ∈ s.replied.map Prod.fst ++ s.send.items) : pkt'.respCh ≠ pkt.respCh := by
  have hnodup := hs.nodup
  rw [hs.accepted_eq, htaken, List.singleton_append, List.map_append, List.map_cons,
    List.nodup_middle, ← List.map_append] at hnodup
  intro heq
  exact (List.nodup_cons.mp hnodup).1 (heq ▸ List.mem_map_of_mem h)

/-- Steps of `write` other than the reply leave the calls. -/
theorem Inv.routine (hs : s.Inv) (hcalls : s'.calls = s.calls)
    (haccepted : s'.accepted = s.accepted)
    (hreplied : s'.replied = s.replied)
    (hwaiting : s'.taken ++ s'.send.items = s.taken ++ s.send.items)
    (hsplit : s.accepted = s'.written.map Prod.fst ++ s'.unwritten)
    (hwritten : s'.written = s.replied ++ s'.unreplied) : s'.Inv where
  accepted := haccepted.trans hsplit
  written := by
    rw [hreplied]
    exact hwritten
  nodup := by
    rw [haccepted]
    exact hs.nodup
  calls := by
    rw [hcalls, haccepted]
    exact hs.calls
  waiting := by
    rw [hwaiting, hcalls]
    exact hs.waiting
  returned := by
    rw [hreplied, hcalls]
    exact hs.returned

/-- `write` returns. -/
theorem Inv.stopped (hs : s.Inv) (hloc : s.loc = .loop) : Inv { s with loc := .returned } := by
  refine hs.routine rfl rfl rfl ?_ ?_ ?_
  · simp only [taken, hloc]
  · rw [hs.accepted]
    simp only [unwritten, hloc]
  · rw [hs.written]
    simp only [unreplied, hloc]

theorem Inv.call (hs : s.Inv) (data : Bytes) (addr : Addr) :
    Inv { s with calls := s.calls ++ [⟨data, addr, .sending⟩] } := by
  have hold : ∀ {i : Nat} {c : WriteCall}, s.calls[i]? = some c →
      (s.calls ++ [(⟨data, addr, .sending⟩ : WriteCall)])[i]? = some c := by
    intro i c hi
    rw [List.getElem?_append_left (List.getElem?_eq_some_iff.mp hi).1]
    exact hi
  refine ⟨hs.accepted, hs.written, hs.nodup, fun i c hi hc => ?_, fun pkt hpkt => ?_,
    fun x hx => ?_⟩
  · rcases getElem?_snoc_cases hi with hi | ⟨-, rfl⟩
    · exact hs.calls i c hi hc
    · exact absurd rfl hc
  · exact hold (hs.waiting pkt hpkt)
  · exact hold (hs.returned x hx)

theorem Inv.sent {i : Nat} {c : WriteCall} {send : Chan WritePkt 100} (hs : s.Inv)
    (hi : s.calls[i]? = some c) (hc : c.loc = .sending)
    (hsend : send.items = s.send.items ++ [⟨c.data, c.addr, i⟩]) : (s.sent i c send).Inv := by
  have hlt : i < s.calls.length := (List.getElem?_eq_some_iff.mp hi).1
  -- the calls whose writes were accepted are others
  have hold : ∀ {pkt c'}, pkt ∈ s.accepted → s.calls[pkt.respCh]? = some c' →
      (s.sent i c send).calls[pkt.respCh]? = some c' := by
    intro pkt c' hpkt hc'
    rw [Writing.sent, List.getElem?_set_ne (hs.respCh_ne hi hc hpkt).symm]
    exact hc'
  have haccepted : (s.sent i c send).accepted = s.accepted ++ [⟨c.data, c.addr, i⟩] := rfl
  refine ⟨?_, hs.written, ?_, fun j c' hj hc' => ?_, fun pkt hpkt => ?_, fun x hx => ?_⟩
  · show s.accepted ++ _ = _ ++ (_ ++ send.items)
    rw [hsend, hs.accepted, unwritten, List.append_assoc, List.append_assoc]
    rfl
  · rw [haccepted, List.map_append, List.nodup_append]
    refine ⟨hs.nodup, List.nodup_singleton _, ?_⟩
    rintro a ha b hb rfl
    obtain ⟨pkt, hpkt, rfl⟩ := List.mem_map.mp ha
    exact hs.respCh_ne hi hc hpkt (List.mem_singleton.mp hb)
  · rw [haccepted, List.map_append, List.mem_append]
    rcases getElem?_set_cases hj with ⟨hij, -⟩ | ⟨-, hj⟩
    · exact .inr (List.mem_singleton.mpr hij.symm)
    · exact .inl (hs.calls j c' hj hc')
  · rw [Writing.sent, hsend, ← List.append_assoc] at hpkt
    rcases List.mem_append.mp hpkt with hpkt | hpkt
    · have hmem : pkt ∈ s.accepted := by
        rw [hs.accepted_eq]
        exact List.mem_append_right _ hpkt
      exact hold hmem (hs.waiting pkt hpkt)
    · rw [List.mem_singleton.mp hpkt]
      exact List.getElem?_set_self hlt
  · have hmem : x.1 ∈ s.accepted := by
      rw [hs.accepted_eq]
      exact List.mem_append_left _ (List.mem_map_of_mem hx)
    exact hold hmem (hs.returned x hx)

/-- The call that waits for the write that is being answered. -/
theorem Inv.waiting_taken {pkt : WritePkt} (hs : s.Inv) (htaken : s.taken = [pkt]) :
    s.calls[pkt.respCh]? = some ⟨pkt.data, pkt.addr, .waiting⟩ := by
  refine hs.waiting pkt ?_
  rw [htaken]
  exact List.mem_append_left _ (List.mem_singleton_self pkt)

theorem Inv.answered {pkt : WritePkt} {status : WriteStatus} {c : WriteCall} (hs : s.Inv)
    (hloc : s.loc = .replying pkt status) (hi : s.calls[pkt.respCh]? = some c) :
    (s.answered pkt status c).Inv := by
  have htaken : s.taken = [pkt] := by rw [taken, hloc]
  have hc : c = ⟨pkt.data, pkt.addr, .waiting⟩ :=
    Option.some.inj (hi.symm.trans (hs.waiting_taken htaken))
  have hlt : pkt.respCh < s.calls.length := (List.getElem?_eq_some_iff.mp hi).1
  have hold : ∀ {pkt' c'}, pkt' ∈ s.replied.map Prod.fst ++ s.send.items →
      s.calls[pkt'.respCh]? = some c' →
      (s.answered pkt status c).calls[pkt'.respCh]? = some c' := by
    intro pkt' c' hpkt hc'
    rw [Writing.answered, List.getElem?_set_ne (hs.others htaken hpkt).symm]
    exact hc'
  refine ⟨?_, ?_, hs.nodup, fun j c' hj hc' => ?_, fun pkt' hpkt => ?_, fun x hx => ?_⟩
  · show s.accepted = _
    rw [hs.accepted]
    simp only [Writing.answered, unwritten, hloc]
  · show s.written = _
    rw [hs.written]
    simp only [Writing.answered, unreplied, hloc, List.append_nil]
  · rcases getElem?_set_cases hj with ⟨rfl, -⟩ | ⟨-, hj⟩
    · refine hs.calls _ _ hi ?_
      rw [hc]
      exact fun heq => by cases heq
    · exact hs.calls j c' hj hc'
  · have hitems : pkt' ∈ s.send.items := hpkt
    exact hold (List.mem_append_right _ hitems) (hs.waiting pkt' (List.mem_append_right _ hitems))
  · rcases List.mem_append.mp hx with hx | hx
    · exact hold (List.mem_append_left _ (List.mem_map_of_mem hx)) (hs.returned x hx)
    · cases List.mem_singleton.mp hx
      rw [Writing.answered, List.getElem?_set_self hlt, hc]

theorem step_inv {ev : WriteEvent} (hs : s.Inv) (h : s.step ev = some s') : s'.Inv := by
  cases step_does h with
  | call data addr => exact hs.call data addr
  | send hi hc hsend => exact hs.sent hi hc (Chan.send_eq_some.mp hsend).2
  | take hloc hrecv =>
    have hitems := Chan.recv_eq_some.mp hrecv
    refine hs.routine rfl rfl rfl ?_ ?_ ?_
    · simp only [taken, hloc, hitems, List.singleton_append, List.nil_append]
    · rw [hs.accepted]
      simp only [unwritten, hloc, hitems, List.singleton_append, List.nil_append]
    · rw [hs.written]
      simp only [unreplied, hloc]
  | conn status hloc =>
    refine hs.routine rfl rfl rfl ?_ ?_ ?_
    · simp only [taken, hloc]
    · rw [hs.accepted]
      simp only [unwritten, hloc, List.map_append, List.map_singleton, List.append_assoc,
        List.nil_append]
    · rw [hs.written]
      simp only [unreplied, hloc, List.append_nil]
  | reply hloc hi _ => exact hs.answered hloc hi
  | wake hloc =>
    refine hs.routine rfl rfl rfl ?_ ?_ ?_
    · simp only [taken, hloc]
    · rw [hs.accepted]
      simp only [unwritten, hloc]
    · rw [hs.written]
      simp only [unreplied, hloc]

/-- Only one element has its key. -/
theorem filter_key_eq {α : Type} {f : α → Nat} {l : List α} {x : α} (hl : (l.map f).Nodup)
    (hx : x ∈ l) : l.filter (fun y => f y = f x) = [x] := by
  obtain ⟨l₁, l₂, rfl⟩ := List.append_of_mem hx
  rw [List.map_append, List.map_cons, List.nodup_middle, ← List.map_append] at hl
  have hne : ∀ y ∈ l₁ ++ l₂, ¬ decide (f y = f x) = true := by
    intro y hy heq
    exact (List.nodup_cons.mp hl).1 (of_decide_eq_true heq ▸ List.mem_map_of_mem hy)
  have hx : decide (f x = f x) = true := decide_eq_true rfl
  rw [List.filter_append, List.filter_cons, if_pos hx,
    List.filter_eq_nil_iff.mpr fun y hy => hne y (List.mem_append_left _ hy),
    List.filter_eq_nil_iff.mpr fun y hy => hne y (List.mem_append_right _ hy), List.nil_append]

theorem Inv.written_nodup (hs : s.Inv) : (s.written.map fun x => x.1.respCh).Nodup := by
  have hnodup := hs.nodup
  rw [hs.accepted, List.map_append, List.map_map] at hnodup
  exact (List.nodup_append.mp hnodup).1

/-- The reply that a call has returned is that of its own write, the only one. -/
theorem Inv.own_status {i : Nat} {c : WriteCall} {status : WriteStatus} (hs : s.Inv)
    (hi : s.calls[i]? = some c) (hc : c.loc = .returned status) :
    s.written.filter (fun x => x.1.respCh = i) = [(⟨c.data, c.addr, i⟩, status)] := by
  have hsent : c.loc ≠ .sending := by
    rw [hc]
    exact fun h => by cases h
  obtain ⟨pkt, hpkt, rfl⟩ := List.mem_map.mp (hs.calls i c hi hsent)
  rw [hs.accepted_eq] at hpkt
  rcases List.mem_append.mp hpkt with hpkt | hpkt
  · obtain ⟨x, hx, rfl⟩ := List.mem_map.mp hpkt
    have hret := hs.returned x hx
    rw [hi] at hret
    cases hret
    cases hc
    refine filter_key_eq (f := fun x => x.1.respCh) hs.written_nodup (x := x) ?_
    rw [hs.written]
    exact List.mem_append_left _ hx
  · have hwait := hs.waiting pkt hpkt
    rw [hi] at hwait
    cases hwait
    cases hc

end Writing

end UDPThrottle

end Concord
