import Concord.Go.Alike
import Concord.PacketView
import Concord.UDPServer

/-!
# Plaintext in place of ciphertext

The Crypto extension opens what it can and passes on the rest as it is. `plaintext_serves_as_sealed`:
in every run of a server with the extension, a datagram that is sealed under the key of its sender
can be replaced by its plaintext. The server goes through the same states and writes the same
datagrams, so to act as the sender it is enough to send from that address, with no key.

From its look at the key table on, the goroutine of the one datagram is that of the other
(`processIncoming_alike`); until then, nothing depends on which of the two it is.
-/

namespace Concord

open Go

namespace UDPServer

/-- If the operation looks up the key of the address, it finds `k`. -/
def Finds (addr : GoString) (k : KeyRef) : (e : Op) → e.Res → Prop
  | .getKeyStore a, r => a = addr → r = some k
  | _, _ => True

variable {cr : Crypto} {svr : UDPServer} {k : KeyRef} {nonce plain : Bytes}

/-- With the key `k`, the extension makes the same of a sealing and of its plaintext. -/
theorem decryptTransport_alike (ctx : TransformContext)
    (hsize : aesKeySize (bigBytes k.shared).length = true) (hnonce : nonce.length = Endpoint.nonceSize)
    (hlen : Endpoint.nonceSize ≤ plain.length) (hplain : cr.aead.openText (bigBytes k.shared) plain = none) :
    Prog.Alike (Finds ctx.sender k)
      (cr.decryptTransport ctx (cr.aead.sealText (bigBytes k.shared) nonce plain))
      (cr.decryptTransport ctx plain) := by
  have hlong : ¬ (cr.aead.sealText (bigBytes k.shared) nonce plain).length < Endpoint.nonceSize :=
    Nat.not_lt.mpr (hlen.trans (Nat.le_of_lt cr.aead.length_seal))
  have hsealed : decryptAES cr.aead (bigBytes k.shared)
      (cr.aead.sealText (bigBytes k.shared) nonce plain) = pure (.ok plain) := by
    rw [decryptAES, if_pos hsize, if_neg hlong, cr.aead.open_seal hnonce]
  have hfails : decryptAES cr.aead (bigBytes k.shared) plain =
      pure (.error (ascii "decrypt fail: cipher: message authentication failed")) := by
    rw [decryptAES, if_pos hsize, if_neg (Nat.not_lt.mpr hlen), hplain]
  refine .first (e := Op.getKeyStore ctx.sender) fun r hr => ?_
  obtain rfl : r = some k := hr rfl
  change (decryptAES cr.aead (bigBytes k.shared) _ >>= _) = decryptAES cr.aead (bigBytes k.shared) _ >>= _
  rw [hsealed, hfails]
  rfl

/-- So does the server. -/
theorem processIncoming_alike (hin : svr.data pipelineIn = []) (sender : GoString)
    (hsize : aesKeySize (bigBytes k.shared).length = true) (hnonce : nonce.length = Endpoint.nonceSize)
    (hlen : Endpoint.nonceSize ≤ plain.length) (hplain : cr.aead.openText (bigBytes k.shared) plain = none) :
    Prog.Alike (Finds sender k)
      ((cr.extendServer svr).processIncoming (cr.aead.sealText (bigBytes k.shared) nonce plain) sender)
      ((cr.extendServer svr).processIncoming plain sender) := by
  have hpipeline : ∀ data, processData (cr.extendServer svr).data { pipelineName := pipelineIn, sender } data =
      processTransforms [cr.decryptTransport] { pipelineName := pipelineIn, sender } data := fun data =>
    congrArg (processTransforms · _ data) (Crypto.extendServer_in hin)
  rw [processIncoming, processIncoming, hpipeline, hpipeline]
  refine .bind ?_ _
  exact (decryptTransport_alike { pipelineName := pipelineIn, sender } hsize hnonce hlen hplain).bind _

/-- From any state, a datagram that is sealed under the key the server finds for its sender can be
replaced by its plaintext: by the same events the server comes to the same state, with the same
log but for the datagram. -/
theorem plaintext_serves_as_sealed (cr : Crypto) (svr : UDPServer) (hin : svr.data pipelineIn = [])
    {s₀ s : Sys Op Op.Res Endpoint Env} {sender : GoString} {k : KeyRef} {nonce plain : Bytes}
    {evs : List (Event Choice Env)} {xs : List (Entry Op Op.Res Env)}
    (hrun : (cr.extendServer svr).machine.run s₀
      (.env (.datagram (cr.aead.sealText (bigBytes k.shared) nonce plain) sender) :: evs) = .ok s)
    (hlog : s.log = s₀.log ++ xs)
    (hkey : ∀ i r, Entry.act i (.getKeyStore sender) r ∈ xs → r = some k)
    (hsize : aesKeySize (bigBytes k.shared).length = true) (hnonce : nonce.length = Endpoint.nonceSize)
    (hlen : Endpoint.nonceSize ≤ plain.length) (hplain : cr.aead.openText (bigBytes k.shared) plain = none) :
    ∃ s', (cr.extendServer svr).machine.run s₀ (.env (.datagram plain sender) :: evs) = .ok s' ∧
      s'.state = s.state ∧ s'.log = s.log.set s₀.log.length (.env (.datagram plain sender)) := by
  have hstart := Sys.Swapped.spawn (processIncoming_alike hin sender hsize hnonce hlen hplain) s₀
    (.env (.datagram (cr.aead.sealText (bigBytes k.shared) nonce plain) sender))
    (.env (.datagram plain sender))
  obtain ⟨ys, hys⟩ := Machine.run_log (show (cr.extendServer svr).machine.run _ evs = .ok s from hrun)
  have hxs : ∀ y ∈ ys, y ∈ xs := by
    rw [hys, List.append_assoc] at hlog
    rw [← List.append_cancel_left hlog]
    exact fun y hy => List.mem_cons_of_mem _ hy
  obtain ⟨s', hrun', hswapped⟩ := hstart.run hrun hys fun i e r hact => by
    cases e with
    | getKeyStore a =>
      rintro rfl
      exact hkey i r (hxs _ hact)
    | _ => trivial
  exact ⟨s', hrun', hswapped.state, hswapped.log⟩

/-! ### A run -/

/-- A request to exchange keys; the point is no secret. -/
def exchangeRequest (x : Nat) : Bytes :=
  PktView.marshal ⟨(JSONPkt.refMeta (ascii "r")).set keyTarget Crypto.targetKeyExchangeServer,
    Base64.encode (pubKeyText x x), pubKeyText x x, []⟩

/-- The key of the peer after its exchange. -/
def peerKey : KeyRef := ⟨0, 2 ^ 127 + 2, ⟨some 2, some 2⟩⟩

def findsPeerKey : Entry Op Op.Res Env → Bool
  | .act _ (.getKeyStore a) r => decide (a = ascii "peer" → r = some peerKey)
  | _ => true

/-- A server with the extension, and nothing else. -/
def bareServer : UDPServer := (Crypto.transparent 1).extendServer (UDPServer.new some)

/-- A request of the peer, and the server's work on it until the new key is stored. -/
def exchangeRun (data : Bytes) (i : Nat) : List (Event Choice Env) :=
  .env (.datagram data (ascii "peer")) :: List.replicate 16 (.act i ⟨i, none⟩)

/-- The second request of the peer is sealed under its key. Without the key, the same request
replaces the key as well. -/
theorem peer_key_replaced :
    ∃ s₀ s', bareServer.machine.run start (exchangeRun (exchangeRequest 2) 0) = .ok s₀ ∧
      s₀.state.keys.getKeyStore (ascii "peer") = some peerKey ∧
      bareServer.machine.run s₀ (exchangeRun (exchangeRequest 3) 1) = .ok s' ∧
      s'.state.keys.getKeyStore (ascii "peer") = some ⟨1, 2 ^ 127 + 3, ⟨some 3, some 3⟩⟩ := by
  have heval : ((bareServer.machine.run start (exchangeRun (exchangeRequest 2) 0)).result?.bind fun s₀ =>
      (bareServer.machine.run s₀ (exchangeRun (AEAD.transparent.sealText (bigBytes peerKey.shared)
        (List.replicate 12 7) (exchangeRequest 3)) 1)).result?.bind fun s =>
      if s₀.state.keys.getKeyStore (ascii "peer") = some peerKey ∧
        (s.log.drop s₀.log.length).all findsPeerKey = true ∧
        s.state.keys.getKeyStore (ascii "peer") = some ⟨1, 2 ^ 127 + 3, ⟨some 3, some 3⟩⟩
      then some () else none) = some () := by
    decide +kernel
  simp only [Option.bind_eq_some_iff, Option.ite_none_right_eq_some] at heval
  obtain ⟨s₀, hs₀, s, hs, ⟨hkey, hfinds, hnew⟩, -⟩ := heval
  have hrun := Outcome.eq_ok_of_result? hs
  obtain ⟨xs, hxs⟩ := Machine.run_log hrun
  rw [hxs, List.drop_left] at hfinds
  obtain ⟨s', hrun', hstate, -⟩ := plaintext_serves_as_sealed (Crypto.transparent 1) (UDPServer.new some)
    rfl hrun hxs (fun i r hr => of_decide_eq_true (List.all_eq_true.mp hfinds _ hr) rfl)
    (by decide +kernel) rfl (by decide +kernel) (by decide +kernel)
  exact ⟨s₀, s', Outcome.eq_ok_of_result? hs₀, hkey, hrun', hstate ▸ hnew⟩

end UDPServer

end Concord
