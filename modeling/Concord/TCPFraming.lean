import Concord.OneProtocol

/-!
# Packets in a byte stream

What the TCP server makes of a stream of marshalled packets. `readConn` hands the whole read buffer
to `processIncoming`, with the zeros behind the bytes that were read.

`reads_processed_iff`: the packets are those that were sent exactly if every read has returned
one packet that fills the buffer, and the packets are `Portable`.
-/

namespace Concord

open Go

namespace TCPServer

/-! ## 1. Reads -/

/-- The bytes of the reads before the first error that ends the loop. -/
def chunks : List ReadOutcome → List Bytes
  | [] => []
  | .bytes bin :: rest => bin :: chunks rest
  | .temporary :: rest => chunks rest
  | .failed :: _ => []

theorem readConn_eq (rbuffSize : Nat) (reads : List ReadOutcome) :
    readConn rbuffSize reads = (chunks reads).map (readBuffer rbuffSize) := by
  induction reads with
  | nil => rfl
  | cons r rest ih =>
    cases r with
    | bytes bin => exact congrArg (_ :: ·) ih
    | temporary => exact ih
    | failed => rfl

/-- There is no room behind bytes that fill the buffer. -/
theorem readBuffer_full {rbuffSize : Nat} {bin : Bytes} (h : bin.length = rbuffSize) :
    readBuffer rbuffSize bin = bin := by
  rw [readBuffer, h, Nat.sub_self, List.replicate_zero, List.append_nil]

/-- A buffer with zeros in it is not JSON. -/
theorem length_of_parse {rbuffSize : Nat} {bin : Bytes} (hlen : bin.length ≤ rbuffSize)
    (h : Json.parse (readBuffer rbuffSize bin) ≠ none) : bin.length = rbuffSize := by
  cases hn : rbuffSize - bin.length with
  | zero => omega
  | succ n =>
    refine absurd ?_ h
    rw [readBuffer, hn, List.replicate_succ]
    exact Json.parse_nul bin _

/-! ## 2. Packets -/

/-- `processIncoming` up to the callback queue. -/
def decode (svr : TCPServer) (buff : Bytes) : Routine (Option Request) :=
  processData svr.data { pipelineName := pipelineIn, sender := svr.addr } buff >>=
    UDPServer.accept svr.addr

/-- The buffer is decoded as this packet, into whatever packet the pool hands out: with its
metadata, and an empty ref if it has none, and with its data. -/
def DecodesAs (svr : TCPServer) (buff : Bytes) (v : PktView) : Prop :=
  ∀ s o s', Ends Endpoint.attended (svr.decode buff) s o s' →
    ∃ q dest, o = some q ∧
      s'.Has q.pkt ⟨JSONPkt.overlay (JSONPkt.refMeta []) v.kv, v.wire, v.buff, dest⟩

/-- The packets of the buffers are those that were sent, one by one. -/
def Processes (svr : TCPServer) (rbuffSize : Nat) (reads : List ReadOutcome) (sent : List PktView) :
    Prop :=
  List.Forall₂ svr.DecodesAs (readConn rbuffSize reads) sent

theorem processIncoming_decode (svr : TCPServer) (buff : Bytes) :
    svr.processIncoming buff =
      svr.decode buff >>= serveWith svr.queues svr.addr (TCPServer.reply svr.addr) := by
  rw [processIncoming_eq, incomingWith, decode, Prog.bind_assoc]

/-- Without transforms, the bytes that were read are decoded. -/
theorem decode_completes {svr : TCPServer} (hin : svr.data pipelineIn = []) (buff : Bytes)
    (s : Endpoint) :
    Completes Endpoint.attended sent? (svr.decode buff) s
      fun o q s' => UDPServer.Decoded buff svr.addr s' o q := by
  have hcontinue : codeContinue ≠ codeStopNoop := by decide
  unfold decode processData
  rw [hin]
  show Completes _ _
    (UDPServer.accept svr.addr ({ pipelineName := pipelineIn, sender := svr.addr }, buff, none)) s _
  refine UDPServer.accept_decodes svr.addr buff ?_
  exact hcontinue

theorem DecodesAs.parse {svr : TCPServer} (hin : svr.data pipelineIn = []) {buff : Bytes}
    {v : PktView} (h : svr.DecodesAs buff v) : Json.parse buff ≠ none := by
  intro hparse
  obtain ⟨tr, o, s', hends, hdec⟩ := (decode_completes hin buff Endpoint.init).execs
  obtain ⟨q, dest, rfl, -⟩ := h _ o s' ⟨tr, hends⟩
  generalize tr.filterMap sent? = sent at hdec
  cases hdec with
  | begun _ hun =>
    rw [JSONPkt.unmarshal, hparse] at hun
    cases hun

end TCPServer

/-- The strings of the packet are valid UTF-8, and its text stands for its data, as it does after
`Close`. -/
structure PktView.Portable (v : PktView) : Prop where
  kv : JSONPkt.MetaValid v.kv
  wire : Utf8.Valid v.wire
  data : Base64.decode v.wire = some v.buff

theorem PktView.portable_of_close {v : PktView} (hkv : JSONPkt.MetaValid v.kv)
    (hwire : v.wire = Base64.encode v.buff) : v.Portable where
  kv := hkv
  wire := by
    rw [hwire]
    exact Base64.encode_valid _
  data := by rw [hwire, Base64.decode_encode]

/-- Metadata that comes back from JSON as it was is valid. -/
theorem metaValid_of_overlay {m : Meta}
    (h : JSONPkt.overlay (JSONPkt.refMeta []) (coerceMeta m) =
      JSONPkt.overlay (JSONPkt.refMeta []) m) : JSONPkt.MetaValid m := by
  intro k x hx
  have hget : ((coerceMeta m).get? k).or ((JSONPkt.refMeta []).get? k) = some x := by
    rw [← JSONPkt.get?_overlay, h, JSONPkt.get?_overlay, hx, Option.some_or]
  cases hk : (coerceMeta m).get? k with
  | some y =>
    rw [hk, Option.some_or] at hget
    cases hget
    exact JSONPkt.metaValid_coerceMeta m k _ hk
  | none =>
    -- the only other entry is the ref, and that key is as it was
    rw [hk, Option.none_or, JSONPkt.refMeta, GoMap.get?_set] at hget
    split at hget
    · next href =>
      subst href
      rw [JSONPkt.get?_coerceMeta_ascii m keyRef_ascii, hx] at hk
      cases hk
    · cases hget

namespace TCPServer

/-- The packets that are decoded from their own bytes. -/
theorem decodesAs_marshal_iff {svr : TCPServer} (hin : svr.data pipelineIn = []) {v : PktView} :
    svr.DecodesAs v.marshal v ↔ v.Portable := by
  constructor
  · intro h
    obtain ⟨tr, o, s', hends, hdec⟩ := (decode_completes hin v.marshal Endpoint.init).execs
    obtain ⟨q, dest, rfl, c, hc, hshows⟩ := h _ o s' ⟨tr, hends⟩
    generalize tr.filterMap sent? = sent at hdec
    cases hdec with
    | @begun e wire wire' q hnew hun href hresp huse hpkt =>
      obtain ⟨body, hbody⟩ := JSONPkt.decodes_of_unmarshal hun
      obtain ⟨d, hd, hread⟩ := hnew.unmarshal_of_decode hbody
      rw [hd] at hpkt
      cases hpkt.symm.trans hc
      have hwire : Utf8.Valid v.wire := hread.wire.symm.trans hshows.wire
      have hdata : body = v.buff := hread.buff.symm.trans hshows.buff
      have hkv := Option.some.inj (hread.kvMap.symm.trans hshows.kvMap)
      refine ⟨metaValid_of_overlay hkv, hwire, ?_⟩
      rw [← hdata, ← hbody, hwire]
  · rintro hv s o s' ⟨tr, hends⟩
    have hdec := (decode_completes hin v.marshal s).2 tr o s' hends
    have hbody : Base64.decode (Utf8.toValid v.wire) = some v.buff := by
      rw [hv.wire]
      exact hv.data
    generalize tr.filterMap sent? = sent at hdec
    cases hdec with
    | refused hnew hbad _ =>
      obtain ⟨d, hd, -⟩ := hnew.unmarshal_of_decode hbody
      exact absurd (congrArg Prod.snd hd) hbad
    | @begun e wire wire' q hnew hun href hresp huse hpkt =>
      obtain ⟨d, hd, hread⟩ := hnew.unmarshal_of_decode hbody
      rw [hd] at hpkt
      rw [hv.wire, JSONPkt.coerceMeta_of_valid hv.kv] at hread
      exact ⟨q, d.dest, rfl, d, hpkt, hread⟩

/-! ## 3. Streams -/

theorem sum_le_of_all {n : Nat} {l : List Nat} (hle : ∀ x ∈ l, x ≤ n) : l.sum ≤ l.length * n := by
  induction l with
  | nil => exact Nat.zero_le _
  | cons x l ih =>
    have hl := ih fun y hy => hle y (List.mem_cons_of_mem _ hy)
    rw [List.sum_cons, List.length_cons, Nat.succ_mul, Nat.add_comm]
    exact Nat.add_le_add hl (hle x List.mem_cons_self)

/-- Numbers up to a bound that add up to as many times the bound are all equal to it. -/
theorem all_eq_of_sum {n : Nat} {l : List Nat} (hle : ∀ x ∈ l, x ≤ n) (hsum : l.sum = l.length * n) :
    ∀ x ∈ l, x = n := by
  induction l with
  | nil => exact fun _ hx => absurd hx List.not_mem_nil
  | cons x l ih =>
    have hx := hle x List.mem_cons_self
    have hrest : ∀ y ∈ l, y ≤ n := fun y hy => hle y (List.mem_cons_of_mem _ hy)
    have hl := sum_le_of_all hrest
    rw [List.sum_cons, List.length_cons, Nat.succ_mul] at hsum
    exact List.forall_mem_cons.mpr ⟨by omega, ih hrest (by omega)⟩

/-- As many chunks as packets, and all of them full: then each is one packet. -/
theorem chunks_eq_of_full {n : Nat} {reads packets : List Bytes}
    (hstream : reads.flatten = packets.flatten) (hlen : reads.length = packets.length)
    (hfull : ∀ r ∈ reads, r.length = n) (hfit : ∀ p ∈ packets, p.length ≤ n) :
    reads = packets ∧ ∀ p ∈ packets, p.length = n := by
  have hreads : reads.map List.length = List.replicate packets.length n := by
    rw [← hlen]
    exact List.map_eq_replicate_iff.mpr hfull
  have hsum : (packets.map List.length).sum = (packets.map List.length).length * n := by
    rw [← List.length_flatten, ← hstream, List.length_flatten, hreads, List.sum_replicate_nat,
      List.length_map]
  have hpackets : ∀ p ∈ packets, p.length = n := fun p hp =>
    all_eq_of_sum (List.forall_mem_map.mpr hfit) hsum _ (List.mem_map_of_mem hp)
  refine ⟨List.eq_iff_flatten_eq.mpr ⟨hstream, ?_⟩, hpackets⟩
  rw [hreads]
  exact (List.map_eq_replicate_iff.mpr hpackets).symm

end TCPServer

/-- A server without transforms processes the packets that were sent exactly if each read has
returned one of them, each fills the read buffer, and each has valid strings and a text that stands
for its data. -/
theorem reads_processed_iff (svr : TCPServer) (hin : svr.data pipelineIn = []) {rbuffSize : Nat}
    {reads : List TCPServer.ReadOutcome} {sent : List PktView}
    (hstream : (TCPServer.chunks reads).flatten = (sent.map PktView.marshal).flatten)
    (hreads : ∀ r ∈ TCPServer.chunks reads, r.length ≤ rbuffSize)
    (hfit : ∀ v ∈ sent, v.marshal.length ≤ rbuffSize) :
    svr.Processes rbuffSize reads sent ↔
      TCPServer.chunks reads = sent.map PktView.marshal ∧
      (∀ v ∈ sent, v.marshal.length = rbuffSize) ∧ ∀ v ∈ sent, v.Portable := by
  unfold TCPServer.Processes
  rw [TCPServer.readConn_eq, List.forall₂_map_left_iff]
  constructor
  · intro h
    have hfull : ∀ r ∈ TCPServer.chunks reads, r.length = rbuffSize := by
      have hparsed : List.Forall₂ (fun (r : Bytes) _ =>
          (r.length ≤ rbuffSize → r.length = rbuffSize) ∧ True) (TCPServer.chunks reads) sent :=
        h.imp fun r v hdec => ⟨fun hle => TCPServer.length_of_parse hle (hdec.parse hin), trivial⟩
      exact fun r hr => ((List.forall₂_and_left _ _).mp hparsed).1 r hr (hreads r hr)
    have hlen : (TCPServer.chunks reads).length = (sent.map PktView.marshal).length := by
      rw [List.length_map]
      exact h.length_eq
    obtain ⟨heq, hall⟩ :=
      TCPServer.chunks_eq_of_full hstream hlen hfull (List.forall_mem_map.mpr hfit)
    have hall : ∀ v ∈ sent, v.marshal.length = rbuffSize := List.forall_mem_map.mp hall
    refine ⟨heq, hall, fun v hv => ?_⟩
    rw [heq, List.forall₂_map_left_iff, List.forall₂_same] at h
    have hv' := h v hv
    rw [TCPServer.readBuffer_full (hall v hv)] at hv'
    exact (TCPServer.decodesAs_marshal_iff hin).mp hv'
  · rintro ⟨heq, hall, hdec⟩
    rw [heq, List.forall₂_map_left_iff, List.forall₂_same]
    intro v hv
    rw [TCPServer.readBuffer_full (hall v hv)]
    exact (TCPServer.decodesAs_marshal_iff hin).mpr (hdec v hv)

/-- A packet with a ref and some data. -/
def pingView : PktView :=
  ⟨JSONPkt.refMeta (ascii "r1"), Base64.encode (ascii "ping"), ascii "ping", []⟩

theorem pingView_portable : pingView.Portable :=
  PktView.portable_of_close
    (JSONPkt.metaValid_set JSONPkt.metaValid_empty (by decide) (by decide)) rfl

/-- Two packets that fill the read buffer, with a temporary error in between. -/
theorem pings_processed :
    (TCPServer.new (ascii "10.0.0.9:9000")).Processes pingView.marshal.length
      [.bytes pingView.marshal, .temporary, .bytes pingView.marshal, .failed]
      [pingView, pingView] := by
  have hmem : ∀ v ∈ [pingView, pingView], v = pingView := by simp
  refine (reads_processed_iff _ rfl rfl (fun r hr => ?_) fun v hv => ?_).mpr
    ⟨rfl, fun v hv => ?_, fun v hv => ?_⟩
  · have hr : r ∈ [pingView.marshal, pingView.marshal] := hr
    rw [show r = pingView.marshal by simpa using hr]
  · rw [hmem v hv]
  · rw [hmem v hv]
  · rw [hmem v hv]
    exact pingView_portable

/-- A read buffer with room for one byte more: the packet is refused. -/
theorem ping_refused :
    ¬ (TCPServer.new (ascii "10.0.0.9:9000")).Processes (pingView.marshal.length + 1)
      [.bytes pingView.marshal, .failed] [pingView] := by
  intro h
  obtain ⟨hdec, -⟩ := List.forall₂_cons.mp h
  have hlen := TCPServer.length_of_parse (Nat.le_succ _) (hdec.parse rfl)
  omega

end Concord
