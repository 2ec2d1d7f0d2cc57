import Concord.UDPClient
import Concord.PacketView

/-!
# Key exchanges of a client

`core/crypto/client.go`: the packets that ask for a key, and the exchanges that send
one and store the key of the answer. The response channel of an exchange is made in it,
so here it is a number that stands for the exchange.

The texts the two sides write come back as they were: `pubKeyOf_pubKeyText`,
`PublicKey.text_ofNat` and, for an address without characters JSON escapes,
`ipOf_ipText`.
-/

namespace Concord

open Go

/-! ## 1. The exchanges -/

/-- The body of a client-client request, by `fmt.Sprintf`. -/
def ipText (addr : GoString) : Bytes := ascii "\x7b\"ip\":\"" ++ (addr ++ ascii "\"\x7d")

namespace Crypto

/-- `ConfigureKeyExClientPkt`. -/
def configureKeyExClientPkt (addr : GoString) (pw : Nat) : Routine Unit :=
  Routine.callAll pw
    [.clear, .metaAdd keyTarget targetKeyExchangeClient, .write (ipText addr), .close]

/-- `ConfigureKeyExServerPkt`. -/
def configureKeyExServerPkt (cr : Crypto) (pw : Nat) : Routine Unit :=
  Routine.callAll pw
    [.clear, .metaAdd keyTarget targetKeyExchangeServer, .write cr.publicKey, .close]

/-- `ProcessKeyExResp`: the error it returns, if any. `jsonErr` is the text
`json.Unmarshal` fails with. -/
def processKeyExResp (cr : Crypto) (jsonErr : Bytes → GoString) (addr : GoString) (resp : Nat) :
    Routine (Option GoString) := do
  let body ← Routine.data resp
  match pubKeyOf body with
  | none => return some (Fmt.errorf (ascii "packet decode error: " ++ jsonErr body))
  | some pk =>
    let shared ← cr.computeSharedKey pk
    Routine.perform (.setKeyStore addr ⟨true, shared, pk⟩)
    return none

/-- `ServerKEx`. What `Send` returns is not looked at. -/
def serverKEx (cr : Crypto) (jsonErr : Bytes → GoString) (client : UDPClient) (svrAddr : GoString)
    (pkt kexResp : Nat) : Routine (Option GoString) := do
  cr.configureKeyExServerPkt pkt
  let _ ← client.send pkt (some kexResp)
  let resp ← Routine.perform (.receive kexResp)
  let err ← cr.processKeyExResp jsonErr svrAddr resp
  return err.map fun err => ascii "handshake error: " ++ err

/-- `ConfigureClient`, on a new extension: the exchange, and the error it returns, if any. The
client is the one without the extension; `Extend` follows, and does not fail. -/
def configureClient (cr : Crypto) (jsonErr : Bytes → GoString) (client : UDPClient)
    (svrAddr : GoString) (pkt kexResp : Nat) : Routine (Option GoString) := do
  let err ← cr.serverKEx jsonErr client svrAddr pkt kexResp
  return err.map fun err => ascii "handshake error: " ++ err

/-- `ClientKEx`. -/
def clientKEx (cr : Crypto) (jsonErr : Bytes → GoString) (client : UDPClient)
    (clientAddr : GoString) (pkt respChan : Nat) : Routine (Option GoString) := do
  configureKeyExClientPkt clientAddr pkt
  let _ ← client.send pkt (some respChan)
  let resp ← Routine.perform (.receive respChan)
  let err ← cr.processKeyExResp jsonErr clientAddr resp
  return err.map fun err => ascii "client-kex ferror: " ++ err

theorem processKeyExResp_allOps {P : Op → Prop} {cr : Crypto} {resp : Nat}
    (jsonErr : Bytes → GoString) (addr : GoString) (hread : P (.read resp .data))
    (hset : ∀ k, P (.setKeyStore addr k)) (hpanic : P .panic) :
    (cr.processKeyExResp jsonErr addr resp).AllOps P := by
  refine Prog.allOps_op hread fun body => ?_
  cases pubKeyOf body with
  | none => trivial
  | some pk =>
    exact Prog.allOps_bind (computeSharedKey_allOps hpanic cr pk) fun _ =>
      Prog.allOps_op (hset _) fun _ => trivial

end Crypto

/-! ## 2. The texts -/

/-- The public key with these coordinates. -/
def PublicKey.ofNat (pt : Nat × Nat) : PublicKey := ⟨some (Int.ofNat pt.1), some (Int.ofNat pt.2)⟩

theorem parse_pubKeyText (x y : Nat) :
    Json.parse (pubKeyText x y) =
      some (.obj [(ascii "x", .num (decimal x)), (ascii "y", .num (decimal y))]) :=
  Json.parse_render ⟨by decide, isNumber_decimal x, isNumber_decimal y, trivial⟩

theorem pubKeyOf_pubKeyText (pt : Nat × Nat) :
    pubKeyOf (pubKeyText pt.1 pt.2) = some (PublicKey.ofNat pt) := by
  have hcoord : ∀ n, coordOf (.num (decimal n)) = some (some (Int.ofNat n)) := fun n => by
    rw [coordOf, parseBig_decimal]
    rfl
  have hx : isXKey (ascii "x") = true := rfl
  have hy : isXKey (ascii "y") = false ∧ isYKey (ascii "y") = true := ⟨rfl, rfl⟩
  rw [pubKeyOf, parse_pubKeyText]
  simp only [pubKeyOfMembers, hx, hy, if_true, hcoord, Option.bind_some, Bool.false_eq_true,
    if_false]
  rfl

/-- A stored public key is written the way its owner writes it. -/
theorem PublicKey.text_ofNat (pt : Nat × Nat) :
    (PublicKey.ofNat pt).text = pubKeyText pt.1 pt.2 := rfl

/-- No key is read from an empty body. -/
theorem pubKeyOf_nil : pubKeyOf [] = none := rfl

/-- The byte stands for itself in a JSON string. -/
def isPlain (b : UInt8) : Bool := b < 0x80 && Json.quoteByte b == [b]

theorem quoteFrom_plain {s : Bytes} (h : s.all isPlain = true) : Json.quoteFrom true 0 s = s := by
  induction s with
  | nil => rfl
  | cons b s ih =>
    rw [List.all_cons, Bool.and_eq_true] at h
    obtain ⟨hb, hs⟩ := h
    simp only [isPlain, Bool.and_eq_true, decide_eq_true_eq, beq_iff_eq] at hb
    rw [Json.quoteFrom, if_pos hb.1, hb.2, ih hs]
    rfl

theorem ipText_plain {addr : GoString} (h : addr.all isPlain = true) :
    ipText addr = (Json.obj [(ascii "ip", .str addr)]).render := by
  simp only [Json.render, Json.renderMembers, Json.quote, quoteFrom_plain h]
  simp only [ipText, List.cons_append, List.append_assoc]
  rfl

/-- The server reads the address the client has written. -/
theorem ipOf_ipText {addr : GoString} (h : addr.all isPlain = true) :
    ipOf (ipText addr) = some addr := by
  have hvalid : Utf8.toValid addr = addr := Utf8.valid_of_ascii fun b hb => by
    have := List.all_eq_true.mp h b hb
    simp only [isPlain, Bool.and_eq_true, decide_eq_true_eq] at this
    exact this.1
  have hparse : Json.parse (ipText addr) = some (.obj [(ascii "ip", .str addr)]) := by
    have hfits : Json.Fits Json.maxNestingDepth (.obj [(ascii "ip", .str addr)]) :=
      ⟨by decide, trivial, trivial⟩
    rw [ipText_plain h, Json.parse_render hfits]
    simp only [Json.toValid, Json.toValidMembers, hvalid]
    rfl
  rw [ipOf, hparse]
  rfl

end Concord
