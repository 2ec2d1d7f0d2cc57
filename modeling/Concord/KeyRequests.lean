import Concord.KeyExchange
import Concord.Decryption
import Concord.Go.JsonLiteral

/-!
# The address in a key request

`ConfigureKeyExClientPkt` puts the address it asks about into a JSON text with `fmt.Sprintf`, and
`keyExchangeClient` reads the text with `json.Unmarshal`.

1. `ipOf_ipText_iff`: an address comes back as it was exactly if it holds no quote, no backslash
   and no control character.
2. `request_faithful_iff`: so the answer is about that address, whatever keys the server has,
   exactly for those.
-/

namespace Concord

open Go

/-! ## 1. The text -/

/-- A string that is read for the address is one of the values, or the empty one it starts with. -/
theorem ipOfMembers_light {n : Nat} {ms : List (GoString × Json)} (hms : ∀ m ∈ ms, m.2.Light n)
    {ip : GoString} (hip : Json.asciiCount ip < n) :
    Json.asciiCount (ipOfMembers ip ms).1 < n := by
  induction ms generalizing ip with
  | nil => exact hip
  | cons m ms ih =>
    obtain ⟨hv, hrest⟩ := List.forall_mem_cons.mp hms
    obtain ⟨k, v⟩ := m
    unfold ipOfMembers
    split
    · split
      · exact ih hrest hv
      · exact ih hrest hip
      · exact ih hrest hip
    · exact ih hrest hip

/-- The scanner behind the quote that opens the address. -/
theorem run_ip (text : Bytes) :
    Json.run (.value false []) (ascii "\x7b\"ip\":\"" ++ text) =
      Json.run (.inStr [.obj [] (ascii "ip")] [] .plain) text :=
  Json.run_append_of_run rfl text

theorem parse_ipText {addr : GoString} {v : Json} (h : Json.parse (ipText addr) = some v) :
    ((∀ b ∈ addr, Json.isLiteral b = true) ∧ v = .obj [(ascii "ip", .str (Utf8.toValid addr))]) ∨
      ∃ ms, ¬ (∀ b ∈ addr, Json.isLiteral b = true) ∧ v = .obj ms ∧
        ∀ m ∈ ms, m.2.Light (Json.asciiCount addr) := by
  unfold Json.parse at h
  split at h
  · next w hw =>
    cases h
    rw [ipText, run_ip] at hw
    have hst : ∀ f ∈ [Json.Frame.obj [] (ascii "ip")], f.Light 0 := by
      intro f hf
      rw [List.mem_singleton.mp hf]
      exact fun m hm => absurd hm List.not_mem_nil
    rcases Json.settled_spliced hst hw with ⟨ms, k, hlit, hst', rfl⟩ | ⟨ms, hlit, rfl, hms⟩
    · cases hst'
      exact .inl ⟨hlit, rfl⟩
    · exact .inr ⟨ms, hlit, rfl, hms⟩
  · cases h

/-- A text that steers the scanner has an ASCII character. -/
theorem asciiCount_pos {s : GoString} (h : ¬ ∀ b ∈ s, Json.isLiteral b = true) :
    0 < Json.asciiCount s := by
  simp only [not_forall, Bool.not_eq_true] at h
  obtain ⟨b, hb, hlit⟩ := h
  exact List.countP_pos_iff.mpr ⟨b, hb, decide_eq_true (Json.ascii_of_not_isLiteral hlit)⟩

/-- The address the server reads is the one that was asked about. -/
theorem ipOf_ipText_iff {addr : GoString} (hvalid : Utf8.Valid addr) :
    ipOf (ipText addr) = some addr ↔ ∀ b ∈ addr, Json.isLiteral b = true := by
  constructor
  · intro h
    unfold ipOf at h
    split at h
    · next ms hparse =>
      rcases parse_ipText hparse with ⟨hlit, -⟩ | ⟨ms', hlit, heq, hms⟩
      · exact hlit
      · -- the string that was read has fewer ASCII characters than the address
        cases heq
        have hlight : Json.asciiCount (ipOfMembers [] ms).1 < Json.asciiCount addr :=
          ipOfMembers_light hms (asciiCount_pos hlit)
        split at h
        · next ip hip =>
          cases h
          rw [hip] at hlight
          exact absurd hlight (Nat.lt_irrefl _)
        · cases h
    · next hparse =>
      rcases parse_ipText hparse with ⟨-, heq⟩ | ⟨ms, -, heq, -⟩
      · cases heq
      · cases heq
    · cases h
  · intro hlit
    have hrun : Json.run (.value false []) (ipText addr) =
        some (.done (.obj [(ascii "ip", .str (Utf8.toValid addr))]) []) := by
      rw [ipText, run_ip, Json.run_append_of_run (Json.run_literal hlit _ [])]
      have hliteral : Json.literal (addr.map Json.Piece.raw).reverse = Utf8.toValid addr := by
        rw [Json.literal, List.reverse_reverse, Json.unquote_raw]
      rw [List.append_nil, ← hliteral]
      rfl
    have hparse : Json.parse (ipText addr) = some (.obj [(ascii "ip", .str addr)]) := by
      rw [Json.parse, hrun, hvalid]
      rfl
    rw [ipOf, hparse]
    rfl

/-! ## 2. The request -/

namespace Crypto

variable {s s' : Endpoint}

/-- Calls on a packet that is there have made of it what they make of it one after the other. -/
theorem execs_callAll {p : Nat} {ops : List PktOp} {tr : Trace} {u : Unit} {c : JSONPkt}
    (h : Execs Endpoint.handle (Routine.callAll p ops) s tr u s') (hc : s.pkts.mem[p]? = some c) :
    ∃ d, ops.foldlM PktOp.apply c = some d ∧ s'.pkts.mem[p]? = some d := by
  induction ops generalizing s c tr with
  | nil =>
    obtain ⟨-, -, rfl⟩ := execs_pure.mp h
    exact ⟨c, rfl, hc⟩
  | cons op ops ih =>
    obtain ⟨ch, r, s₁, tr', hcall, hrest, -⟩ := execs_perform.mp h
    obtain ⟨c', d, hc', hd, -, rfl⟩ := Endpoint.handle_call_ok (c := ch) hcall
    cases hc.symm.trans hc'
    obtain ⟨e, he, hmem⟩ := ih hrest (Endpoint.getElem?_setPkt_self hc)
    exact ⟨e, by rw [List.foldlM_cons, hd]; exact he, hmem⟩

/-- A packet that was called is there. -/
theorem exists_of_callAll {p : Nat} {op : PktOp} {ops : List PktOp} {tr : Trace} {u : Unit}
    (h : Execs Endpoint.handle (Routine.callAll p (op :: ops)) s tr u s') :
    ∃ c, s.pkts.mem[p]? = some c := by
  obtain ⟨ch, r, s₁, tr', hcall, -, -⟩ := execs_perform.mp h
  obtain ⟨c, -, hc, -⟩ := Endpoint.handle_call_ok (c := ch) hcall
  exact ⟨c, hc⟩

/-- The data section that `ConfigureKeyExClientPkt` has written. -/
theorem configureKeyExClientPkt_data {addr : GoString} {pw : Nat} {w : JSONPkt}
    (h : Ends Endpoint.handle (configureKeyExClientPkt addr pw) s () s')
    (hw : s'.pkts.mem[pw]? = some w) : w.data = ipText addr := by
  obtain ⟨tr, h⟩ := h
  obtain ⟨c, hc⟩ := exists_of_callAll h
  obtain ⟨d, hd, hmem⟩ := execs_callAll h hc
  cases hw.symm.trans hmem
  obtain ⟨c₁, hc₁, hd⟩ := Option.bind_eq_some_iff.mp hd
  obtain ⟨r, -, rfl⟩ := Option.map_eq_some_iff.mp hc₁
  cases hd
  exact List.nil_append _

/-- The answer to a request about this address: the key of the address, or that there is none. -/
def AnswersAbout (addr : GoString) (s : Endpoint) (ctx : TargetCtx) (pw : Nat) (d : JSONPkt) :
    Prop :=
  match s.keys.getKeyStore addr with
  | none => Yields Endpoint.handle (keyExchangeClient ctx pw) s
      { ctx with stat := codeStopError, msg := ascii "client non-existent" } s
  | some k => Yields Endpoint.handle (keyExchangeClient ctx pw) s ctx
      (s.setPkt pw (d.write k.pub.text))

/-- Whatever packet a client has written the request to, a server that is given its data section
answers about the address, whatever keys it has; `d` is the response with the mark that keeps it
from being encrypted. -/
def RequestFaithful (addr : GoString) : Prop :=
  ∀ (s₀ s₁ : Endpoint) (pkt : Nat) (w : JSONPkt),
    Ends Endpoint.handle (configureKeyExClientPkt addr pkt) s₀ () s₁ →
    s₁.pkts.mem[pkt]? = some w →
    ∀ (s : Endpoint) (ctx : TargetCtx) (pw : Nat) (c r d : JSONPkt),
      s.pkts.mem[ctx.pkt]? = some c → c.data = w.data → s.pkts.mem[pw]? = some r →
      r.metaAdd keyNoCrypto (ascii "true") = some d → AnswersAbout addr s ctx pw d

/-- What `keyExchangeClient` does with an address it has read. -/
theorem keyExchangeClient_answers {ctx : TargetCtx} {pw : Nat} {c r d : JSONPkt} {ip : GoString}
    (hc : s.pkts.mem[ctx.pkt]? = some c) (hip : ipOf c.data = some ip)
    (hr : s.pkts.mem[pw]? = some r) (hd : r.metaAdd keyNoCrypto (ascii "true") = some d) :
    AnswersAbout ip s ctx pw d := by
  unfold AnswersAbout
  split
  · next hk =>
    refine yields_det (Endpoint.handle_read hc .data) ?_
    simp only [PktRead.eval, hip]
    refine yields_det (getKeyStore_handle s ip) ?_
    rw [hk]
    exact yields_pure
  · next k hk =>
    refine yields_det (Endpoint.handle_read hc .data) ?_
    simp only [PktRead.eval, hip]
    refine yields_det (getKeyStore_handle s ip) ?_
    rw [hk]
    refine yields_call hr hd ?_
    refine yields_call (Endpoint.getElem?_setPkt_self hr) rfl ?_
    rw [Endpoint.setPkt_setPkt]
    exact yields_pure

/-- Without an address it refuses the request. -/
theorem keyExchangeClient_malformed {ctx : TargetCtx} {pw : Nat} {c : JSONPkt}
    (hc : s.pkts.mem[ctx.pkt]? = some c) (hip : ipOf c.data = none) :
    Yields Endpoint.handle (keyExchangeClient ctx pw) s
      { ctx with stat := codeStopError, msg := ascii "malformed packet" } s := by
  refine yields_det (Endpoint.handle_read hc .data) ?_
  simp only [PktRead.eval, hip]
  exact yields_pure

theorem configureKeyExClientPkt_ends {addr : GoString} {pkt : Nat} {c d : JSONPkt}
    (hc : s.pkts.mem[pkt]? = some c)
    (hd : c.clear.metaAdd keyTarget targetKeyExchangeClient = some d) :
    Ends Endpoint.handle (configureKeyExClientPkt addr pkt) s ()
      (s.setPkt pkt (d.write (ipText addr)).close) := by
  have h₁ := Endpoint.getElem?_setPkt_self (d := c.clear) hc
  have h₂ := Endpoint.getElem?_setPkt_self (d := d) h₁
  have h₃ := Endpoint.getElem?_setPkt_self (d := d.write (ipText addr)) h₂
  have hyields : Yields Endpoint.handle (configureKeyExClientPkt addr pkt) s ()
      (s.setPkt pkt (d.write (ipText addr)).close) := by
    refine yields_call hc rfl (yields_call h₁ hd (yields_call h₂ rfl ?_))
    refine yields_call (f := fun _ => pure ()) h₃ rfl ?_
    simp only [Endpoint.setPkt_setPkt]
    exact yields_pure
  exact hyields.ends

theorem nil_pool_lt (pkts : List JSONPkt) : ∀ i ∈ ([] : List Nat), i < pkts.length :=
  fun _ h => absurd h List.not_mem_nil

/-- An endpoint with these packets and these keys. -/
def holding (pkts : List JSONPkt) (keys : KeyTable) : Endpoint :=
  { Endpoint.init with pkts := ⟨pkts, [], nil_pool_lt pkts⟩, keys }

/-- A key, the only one a server has, for this address. -/
def onlyKey (addr : GoString) : KeyTable :=
  KeyTable.empty.setKeyStore addr ⟨true, 1, PublicKey.ofNat (1, 2)⟩

theorem getKeyStore_onlyKey (addr a : GoString) :
    (onlyKey addr).getKeyStore a =
      if a = addr then some ⟨0, 1, PublicKey.ofNat (1, 2)⟩ else none :=
  KeyTable.getKeyStore_setKeyStore _ _ _ _

/-- A server that has a key for this address only would refuse a request about any other. -/
theorem ipOf_of_answersAbout {addr : GoString} {ctx : TargetCtx} {pw : Nat} {c r d : JSONPkt}
    (hkeys : s.keys = onlyKey addr) (hstat : ctx.stat ≠ codeStopError)
    (hc : s.pkts.mem[ctx.pkt]? = some c) (hr : s.pkts.mem[pw]? = some r)
    (hd : r.metaAdd keyNoCrypto (ascii "true") = some d) (h : AnswersAbout addr s ctx pw d) :
    ipOf c.data = some addr := by
  rw [AnswersAbout, hkeys, getKeyStore_onlyKey, if_pos rfl] at h
  cases hip : ipOf c.data with
  | none =>
    have heq := (h.unique (keyExchangeClient_malformed hc hip)).1
    exact absurd (congrArg TargetCtx.stat heq).symm hstat
  | some ip =>
    by_cases haddr : ip = addr
    · rw [haddr]
    · have hother := keyExchangeClient_answers hc hip hr hd
      rw [AnswersAbout, hkeys, getKeyStore_onlyKey, if_neg haddr] at hother
      have heq := (h.unique hother).1
      exact absurd (congrArg TargetCtx.stat heq).symm hstat

theorem ipOf_of_requestFaithful {addr : GoString} (h : RequestFaithful addr) :
    ipOf (ipText addr) = some addr := by
  obtain ⟨w, hw⟩ : ∃ w, JSONPkt.new.clear.metaAdd keyTarget targetKeyExchangeClient = some w :=
    ⟨_, rfl⟩
  obtain ⟨d, hd⟩ : ∃ d, JSONPkt.new.metaAdd keyNoCrypto (ascii "true") = some d := ⟨_, rfl⟩
  have hends : Ends Endpoint.handle (configureKeyExClientPkt addr 0) (holding [.new] .empty) () _ :=
    configureKeyExClientPkt_ends rfl hw
  have hdata := configureKeyExClientPkt_data hends rfl
  have hanswer := h _ _ 0 _ hends rfl (holding [(w.write (ipText addr)).close, .new] (onlyKey addr))
    { pkt := 0, targetName := targetKeyExchangeClient, sender := [] } 1 _ .new d rfl rfl rfl hd
  rw [← hdata]
  exact ipOf_of_answersAbout rfl (by decide) rfl rfl hd hanswer

/-- A request about a valid address is faithful exactly if there is no quote, no backslash and no
control character in the address. -/
theorem request_faithful_iff (addr : GoString) (hvalid : Utf8.Valid addr) :
    RequestFaithful addr ↔ ∀ b ∈ addr, b ≠ 0x22 ∧ b ≠ 0x5C ∧ ¬ b < 0x20 := by
  have hlit : (∀ b ∈ addr, Json.isLiteral b = true) ↔
      ∀ b ∈ addr, b ≠ 0x22 ∧ b ≠ 0x5C ∧ ¬ b < 0x20 :=
    forall₂_congr fun b _ => Json.isLiteral_iff
  rw [← hlit, ← ipOf_ipText_iff hvalid]
  refine ⟨ipOf_of_requestFaithful, fun hip s₀ s₁ pkt w hends hw s ctx pw c r d hc hdata hr hd => ?_⟩
  rw [configureKeyExClientPkt_data hends hw] at hdata
  exact keyExchangeClient_answers hc (hdata ▸ hip) hr hd

/-- The addresses of UDP clients. -/
theorem udpAddress_faithful : RequestFaithful (ascii "10.0.0.9:4000") :=
  (request_faithful_iff _ (by decide)).mpr (by decide +kernel)

/-- An address with a quote in it names another one: the server answers with the key of that. -/
theorem quoted_not_faithful :
    Utf8.Valid (ascii "10.0.0.9:4000\",\"ip\":\"10.0.0.6:6000") ∧
    ipOf (ipText (ascii "10.0.0.9:4000\",\"ip\":\"10.0.0.6:6000")) =
      some (ascii "10.0.0.6:6000") ∧
    ¬ RequestFaithful (ascii "10.0.0.9:4000\",\"ip\":\"10.0.0.6:6000") := by
  refine ⟨by decide, by decide, fun h => ?_⟩
  have hip := ipOf_of_requestFaithful h
  revert hip
  decide

end Crypto

end Concord
